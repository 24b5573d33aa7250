import Mathlib.Data.Finset.Card
import Mathlib.Data.Finset.Insert
import Mathlib.Data.List.Induction
import SpecLineage.Consistency
import SpecLineage.Proofs.Merge.Document

/-!
# 整合の検査が挙げるもの

識別子の重複は、前に現れた識別子が再び現れるたびに一つずつ挙がり、行き先のない依存は、段と行き先の組ごとにちょうど一つ
挙がる。動詞と経路の組の重複は、先に現れた組を持つ口ごとに、その組を初めに持つ口とともに挙がる。検査が何も挙げないのは、文書が
整合しているときに限る。
-/

namespace SpecLineage

theorem card_toFinset_concat {κ : Type} [DecidableEq κ] (ks : List κ) (k : κ) :
    (ks ++ [k]).toFinset.card = if k ∈ ks then ks.toFinset.card else ks.toFinset.card + 1 := by
  have hfinset : (ks ++ [k]).toFinset = insert k ks.toFinset := by
    ext j
    simp
  rw [hfinset, Finset.card_insert_eq_ite]
  simp only [List.mem_toFinset]

/-! ## 識別子の繰り返し -/

/-- 前に現れたものが再び現れる箇所の数。 -/
def recurrences (is : List String) : Nat :=
  is.zipIdx.countP fun p => decide (p.1 ∈ is.take p.2)

theorem recurrences_concat (is : List String) (i : String) :
    recurrences (is ++ [i]) = recurrences is + if i ∈ is then 1 else 0 := by
  have hbefore : is.zipIdx.countP (fun p => decide (p.1 ∈ (is ++ [i]).take p.2)) =
      recurrences is := by
    refine List.countP_congr fun p hp => ?_
    have hlt : p.2 < is.length := by simpa using List.snd_lt_of_mem_zipIdx hp
    rw [List.take_append_of_le_length hlt.le]
  rw [recurrences, List.zipIdx_append, List.countP_append, hbefore]
  simp [List.countP_singleton]

theorem recurrences_add_card (is : List String) :
    recurrences is + is.toFinset.card = is.length := by
  induction is using List.reverseRecOn with
  | nil => rfl
  | append_singleton is i ih =>
      rw [recurrences_concat, card_toFinset_concat, List.length_append, List.length_singleton]
      split <;> omega

/-- 前にないものを一つずつ加えても、繰り返しは増えない。 -/
theorem recurrences_append_of_fresh (is : List String) {added : List String} (hnodup : added.Nodup)
    (hnew : ∀ i ∈ added, i ∉ is) : recurrences (is ++ added) = recurrences is := by
  induction added using List.reverseRecOn with
  | nil => rw [List.append_nil]
  | append_singleton added i ih =>
      obtain ⟨hadded, -, hdisjoint⟩ := List.nodup_append.mp hnodup
      have hi : i ∉ is ++ added := by
        rw [List.mem_append, not_or]
        refine ⟨hnew i (by simp), fun hmem => ?_⟩
        exact hdisjoint i hmem i (List.mem_singleton_self i) rfl
      rw [← List.append_assoc, recurrences_concat, if_neg hi, Nat.add_zero]
      exact ih hadded fun j hj => hnew j (List.mem_append_left _ hj)

section

variable {α : Type} [Entity α]

theorem repeated_concat (seen : List String) (es : List α) (e : α) :
    repeated seen (es ++ [e]) =
      repeated seen es ++ if Entity.id e ∈ seen ∨ Entity.id e ∈ ids es then [e] else [] := by
  induction es generalizing seen with
  | nil => simp [repeated]
  | cons x es ih =>
      rw [List.cons_append, repeated, repeated]
      by_cases hx : Entity.id x ∈ seen
      · -- 先に現れた識別子なので、加わるかどうかの条件は変わらない。
        have hcond : Entity.id e ∈ seen ∨ Entity.id e ∈ ids (x :: es) ↔
            Entity.id e ∈ seen ∨ Entity.id e ∈ ids es := by
          rw [ids_cons, List.mem_cons]
          refine ⟨?_, Or.imp_right Or.inr⟩
          rintro (h | h | h)
          · exact Or.inl h
          · exact Or.inl (h ▸ hx)
          · exact Or.inr h
        rw [if_pos hx, if_pos hx, ih, List.cons_append]
        simp only [hcond]
      · rw [if_neg hx, if_neg hx, ih]
        simp only [ids_cons, List.mem_cons, or_assoc, or_left_comm]

theorem length_repeated (es : List α) : (repeated [] es).length = recurrences (ids es) := by
  induction es using List.reverseRecOn with
  | nil => rfl
  | append_singleton es e ih =>
      rw [repeated_concat, List.length_append, ih, ids_append, ids_cons, ids_nil, recurrences_concat]
      by_cases he : Entity.id e ∈ ids es <;> simp [he]

theorem code_of_mem_duplicateIds {es : List α} {x : Diagnostic} (h : x ∈ duplicateIds es) :
    x.code = .duplicateId (Entity.kind α) := by
  obtain ⟨e, -, rfl⟩ := List.mem_map.mp h
  rfl

theorem length_duplicateIds (es : List α) : (duplicateIds es).length = recurrences (ids es) := by
  rw [duplicateIds, List.length_map, length_repeated]

end

/-! ## 行き先のない依存 -/

/-- 段 `step` の依存 `target` に行き先がないことの誤り。 -/
def missing (step target : String) : Diagnostic :=
  .error .missingDependency
    s!"workflow step '{step}' depends on '{target}', which is not defined in the resolved document"

theorem mem_dependencies {steps : List WorkflowStep} {step target : String} :
    (step, target) ∈ dependencies steps ↔ ∃ s ∈ steps, s.id = step ∧ target ∈ s.dependsOn := by
  simp only [dependencies, List.mem_flatMap, List.mem_map, Prod.mk.injEq]
  constructor
  · rintro ⟨s, hs, t, ht, rfl, rfl⟩
    exact ⟨s, hs, rfl, ht⟩
  · rintro ⟨s, hs, rfl, ht⟩
    exact ⟨s, hs, target, ht, rfl, rfl⟩

/-- 組は並びの初めに現れた順に一つずつ挙がる。 -/
theorem exists_missingDependencies (steps : List WorkflowStep) :
    ∃ pairs : List (String × String), pairs.Nodup ∧
      missingDependencies steps = pairs.map (fun p => missing p.1 p.2) ∧
      ∀ p, p ∈ pairs ↔ p ∈ dependencies steps ∧ p.2 ∉ ids steps := by
  refine ⟨_, List.nodup_eraseDups _, rfl, fun p => ?_⟩
  rw [List.mem_eraseDups, List.mem_filter]
  refine and_congr_right fun _ => ?_
  rw [Bool.not_eq_true', List.contains_eq_mem, decide_eq_false_iff_not]
  rfl

theorem code_of_mem_missingDependencies {steps : List WorkflowStep} {x : Diagnostic}
    (h : x ∈ missingDependencies steps) : x.code = .missingDependency := by
  obtain ⟨p, -, rfl⟩ := List.mem_map.mp h
  rfl

/-! ## 符号ごとの検査 -/

theorem code_of_mem_duplicateRoutes {es : List ApiEndpoint} {x : Diagnostic}
    (h : x ∈ duplicateRoutes es) : x.code = .duplicateEndpoint := by
  obtain ⟨p, -, rfl⟩ := List.mem_map.mp h
  rfl

/-- 一つの符号だけを持つ診断の列は、符号で選べば、すべて残るか、一つも残らない。 -/
theorem filter_code {ds : List Diagnostic} {code : DiagnosticCode} (h : ∀ x ∈ ds, x.code = code)
    (other : DiagnosticCode) : ds.filter (·.code == other) = if code = other then ds else [] := by
  split
  · rename_i heq
    exact List.filter_eq_self.mpr fun x hx => beq_iff_eq.mpr ((h x hx).trans heq)
  · rename_i hne
    refine List.filter_eq_nil_iff.mpr fun x hx hcode => hne ?_
    exact (h x hx).symm.trans (beq_iff_eq.mp hcode)

namespace Document

theorem filter_check (d : Document) (code : DiagnosticCode) : d.check.filter (·.code == code) =
    (if .duplicateId .businessRule = code then duplicateIds d.businessRules else []) ++
    (if .duplicateId .dataStructure = code then duplicateIds d.dataStructures else []) ++
    (if .duplicateId .apiEndpoint = code then duplicateIds d.apiEndpoints else []) ++
    (if .duplicateId .workflowStep = code then duplicateIds d.workflowSteps else []) ++
    (if .duplicateEndpoint = code then duplicateRoutes d.apiEndpoints else []) ++
    (if .missingDependency = code then missingDependencies d.workflowSteps else []) := by
  simp only [check, List.filter_append, filter_code fun _ => code_of_mem_duplicateIds,
    filter_code fun _ => code_of_mem_duplicateRoutes,
    filter_code fun _ => code_of_mem_missingDependencies]
  rfl

theorem countP_check_duplicateId (d : Document) (kind : EntityKind) :
    d.check.countP (·.code == .duplicateId kind) = recurrences (d.idsOf kind) := by
  rw [List.countP_eq_length_filter, filter_check]
  cases kind <;> simp [idsOf, length_duplicateIds]

theorem filter_check_missingDependency (d : Document) :
    d.check.filter (·.code == .missingDependency) = missingDependencies d.workflowSteps := by
  rw [filter_check]
  simp

end Document

/-! ## 挙がる誤りの列 -/

section

variable {α : Type} [Entity α]

/-- 種類 `kind` の識別子 `id` が重なったことの誤り。 -/
def duplicated (kind : EntityKind) (id : String) : Diagnostic :=
  .error (.duplicateId kind) s!"duplicate {kind.display} id '{id}' in resolved document"

/-- 実体 `e` の識別子が先に現れていることの誤り。 -/
def duplicated? (earlier : List α) (e : α) : Option Diagnostic :=
  if Entity.id e ∈ ids earlier then some (duplicated (Entity.kind α) (Entity.id e)) else none

theorem duplicateIds_eq (es : List α) :
    duplicateIds es = es.withEarlier.filterMap fun p => duplicated? p.1 p.2 := by
  induction es using List.reverseRecOn with
  | nil => rfl
  | append_singleton es e ih =>
      rw [List.withEarlier_concat, List.filterMap_append, ← ih, duplicateIds, repeated_concat,
        List.map_append]
      by_cases h : Entity.id e ∈ ids es <;> simp [duplicated?, duplicated, duplicateIds, h]

end

/-- 口 `e` の動詞と経路の組を、口 `first` が先に持つことの誤り。 -/
def conflicting (first : String) (e : ApiEndpoint) (route : String × String) : Diagnostic :=
  .error .duplicateEndpoint s!"endpoints '{first}' and '{e.id}' both declare {route.1} {route.2}"

/-- その組を初めに持つ口。 -/
def holder? (es : List ApiEndpoint) (route : String × String) : Option ApiEndpoint :=
  es.find? fun e => e.route? == some route

/-- 口 `e` の動詞と経路の組が先に現れていることの誤り。組を初めに持つ口とともに挙げる。 -/
def conflicting? (earlier : List ApiEndpoint) (e : ApiEndpoint) : Option Diagnostic := do
  let route ← e.route?
  let first ← holder? earlier route
  return conflicting first.id e route

theorem holder?_concat (es : List ApiEndpoint) (e : ApiEndpoint) (route : String × String) :
    holder? (es ++ [e]) route =
      (holder? es route).or (if e.route? = some route then some e else none) := by
  rw [holder?, List.find?_append, List.find?_singleton]
  simp only [holder?, beq_iff_eq]

/-- 表 `seen` が、先に読んだ口 `earlier` の動詞と経路の組ごとに、それを初めに持つ口の識別子を記している。 -/
def Holds (seen : List ((String × String) × String)) (earlier : List ApiEndpoint) : Prop :=
  ∀ route, seen.lookup route = (holder? earlier route).map ApiEndpoint.id

/-- 組のない口や、組が先に現れた口を読んでも、表は変わらない。 -/
theorem Holds.keep {seen : List ((String × String) × String)} {earlier : List ApiEndpoint}
    (h : Holds seen earlier) {e : ApiEndpoint}
    (hkept : ∀ route, e.route? = some route → (seen.lookup route).isSome) :
    Holds seen (earlier ++ [e]) := by
  intro route
  rw [h, holder?_concat]
  split
  · rename_i hroute
    have hfound := hkept route hroute
    rw [h, Option.isSome_map] at hfound
    rw [Option.or_of_isSome hfound]
  · rw [Option.or_none]

theorem Holds.extend {seen : List ((String × String) × String)} {earlier : List ApiEndpoint}
    (h : Holds seen earlier) {e : ApiEndpoint} {route : String × String}
    (hroute : e.route? = some route) (hnew : seen.lookup route = none) :
    Holds ((route, e.id) :: seen) (earlier ++ [e]) := by
  intro other
  rw [holder?_concat, hroute, List.lookup_cons]
  by_cases hother : other = route
  · subst hother
    rw [h, Option.map_eq_none_iff] at hnew
    simp [hnew]
  · have hne : some route ≠ some other := fun heq => hother (Option.some.inj heq).symm
    rw [beq_false_of_ne hother, if_neg hne, Option.or_none, h]

/-- `earlier` まで読んだ後の表から読み進めれば、残りの口の誤りが並びの順に挙がる。 -/
theorem repeatedRoutes_eq {seen : List ((String × String) × String)} {earlier : List ApiEndpoint}
    (h : Holds seen earlier) (es : List ApiEndpoint) :
    (repeatedRoutes seen es).map (fun c => conflicting c.1 c.2.1 c.2.2) =
      es.withEarlier.filterMap fun p => conflicting? (earlier ++ p.1) p.2 := by
  induction es generalizing seen earlier with
  | nil => rfl
  | cons e es ih =>
      have htail : ∀ {seen'}, Holds seen' (earlier ++ [e]) →
          (repeatedRoutes seen' es).map (fun c => conflicting c.1 c.2.1 c.2.2) =
            es.withEarlier.filterMap fun p => conflicting? (earlier ++ e :: p.1) p.2 := by
        intro seen' h'
        simpa only [List.append_assoc, List.singleton_append] using ih h'
      rw [List.withEarlier_cons, List.filterMap_cons, List.filterMap_map, List.append_nil,
        repeatedRoutes, conflicting?]
      cases hroute : e.route? with
      | none => exact htail (h.keep fun route hsome => by simp [hroute] at hsome)
      | some route =>
          simp only [Option.bind_eq_bind, Option.bind_some]
          cases hlookup : seen.lookup route with
          | some first =>
              have hkept : Holds seen (earlier ++ [e]) := h.keep fun route' hsome => by
                rw [hroute, Option.some.injEq] at hsome
                rw [← hsome, hlookup]
                rfl
              have hfirst := hlookup
              rw [h, Option.map_eq_some_iff] at hfirst
              obtain ⟨x, hx, rfl⟩ := hfirst
              rw [hx, List.map_cons, htail hkept]
              rfl
          | none =>
              have hnone := hlookup
              rw [h, Option.map_eq_none_iff] at hnone
              rw [hnone]
              exact htail (h.extend hroute hlookup)

theorem duplicateRoutes_eq (es : List ApiEndpoint) :
    duplicateRoutes es = es.withEarlier.filterMap fun p => conflicting? p.1 p.2 := by
  have hstart : Holds [] [] := fun _ => rfl
  exact repeatedRoutes_eq hstart es

theorem duplicateRoutes_concat (es : List ApiEndpoint) (e : ApiEndpoint) :
    duplicateRoutes (es ++ [e]) = duplicateRoutes es ++ (conflicting? es e).toList := by
  rw [duplicateRoutes_eq, duplicateRoutes_eq, List.withEarlier_concat, List.filterMap_append]
  cases h : conflicting? es e <;> simp [h]

/-- 文書にない段への依存の組が、初めて現れたことの誤り。 -/
def missing? (steps : List WorkflowStep) (earlier : List (String × String)) (p : String × String) :
    Option Diagnostic :=
  if p.2 ∈ ids steps ∨ p ∈ earlier then none else some (missing p.1 p.2)

theorem missingDependencies_eq (steps : List WorkflowStep) : missingDependencies steps =
    (dependencies steps).withEarlier.filterMap fun p => missing? steps p.1 p.2 := by
  have hfilter : (dependencies steps).filter (fun d => !(steps.map WorkflowStep.id).contains d.2) =
      (dependencies steps).filter fun d => d.2 ∉ ids steps := by
    refine List.filter_congr fun d _ => ?_
    rw [List.contains_eq_mem, decide_not]
    rfl
  rw [missingDependencies, hfilter, List.eraseDups_filter, List.map_filterMap]
  refine List.filterMap_congr fun p _ => ?_
  by_cases hknown : p.2.2 ∈ ids steps <;> by_cases hseen : p.2 ∈ p.1 <;>
    simp [missing?, missing, hknown, hseen]

/-! ## 不整合のない文書 -/

theorem duplicateIds_eq_nil_iff {α : Type} [Entity α] {es : List α} :
    duplicateIds es = [] ↔ (ids es).Nodup := by
  rw [duplicateIds_eq, List.filterMap_eq_nil_iff, ids, List.Nodup, List.pairwise_map,
    ← List.forall_withEarlier_iff]
  refine forall₂_congr fun p _ => ?_
  simp only [duplicated?, ite_eq_right_iff, reduceCtorEq, imp_false, ids, List.mem_map, not_exists,
    not_and, ne_eq]

/-- 動詞と経路をともに持ち、それらが同じである二つの口。動詞の大文字と小文字は区別しない。 -/
def SameRoute (e f : ApiEndpoint) : Prop :=
  ∃ method method' path, e.method = some method ∧ e.path = some path ∧
    f.method = some method' ∧ f.path = some path ∧ method.toUpper = method'.toUpper

theorem route?_eq_some_iff {e : ApiEndpoint} {route : String × String} : e.route? = some route ↔
    ∃ method path, e.method = some method ∧ e.path = some path ∧ route = (method.toUpper, path) := by
  rw [ApiEndpoint.route?]
  cases e.method <;> cases e.path <;> simp [eq_comm]

theorem sameRoute_iff {e f : ApiEndpoint} :
    SameRoute e f ↔ ∃ route, e.route? = some route ∧ f.route? = some route := by
  simp only [route?_eq_some_iff, SameRoute]
  constructor
  · rintro ⟨method, method', path, he, hepath, hf, hfpath, hupper⟩
    exact ⟨_, ⟨method, path, he, hepath, rfl⟩, method', path, hf, hfpath, by rw [hupper]⟩
  · rintro ⟨route, ⟨method, path, he, hepath, rfl⟩, method', path', hf, hfpath, hroute⟩
    obtain ⟨hupper, rfl⟩ := Prod.mk.inj hroute
    exact ⟨method, method', path, he, hepath, hf, hfpath, hupper⟩

theorem isSome_conflicting? {earlier : List ApiEndpoint} {e : ApiEndpoint} :
    (conflicting? earlier e).isSome ↔
      ∃ route, e.route? = some route ∧ route ∈ earlier.filterMap ApiEndpoint.route? := by
  rw [conflicting?]
  cases e.route? with
  | none => simp
  | some route => simp [Option.isSome_bind, holder?, List.find?_isSome]

theorem duplicateRoutes_eq_nil_iff {es : List ApiEndpoint} :
    duplicateRoutes es = [] ↔ es.Pairwise fun e f => ¬SameRoute e f := by
  rw [duplicateRoutes_eq, List.filterMap_eq_nil_iff, ← List.forall_withEarlier_iff]
  refine forall₂_congr fun p _ => ?_
  rw [← Option.not_isSome_iff_eq_none, isSome_conflicting?]
  simp only [sameRoute_iff, List.mem_filterMap]
  grind

theorem missingDependencies_eq_nil_iff {steps : List WorkflowStep} :
    missingDependencies steps = [] ↔
      ∀ step ∈ steps, ∀ target ∈ step.dependsOn, target ∈ ids steps := by
  obtain ⟨pairs, -, hpairs, hmem⟩ := exists_missingDependencies steps
  rw [hpairs, List.map_eq_nil_iff, List.eq_nil_iff_forall_not_mem]
  simp only [hmem, not_and, not_not]
  constructor
  · intro h step hstep target htarget
    exact h (step.id, target) (mem_dependencies.mpr ⟨step, hstep, rfl, htarget⟩)
  · intro h p hp
    obtain ⟨step, hstep, -, htarget⟩ := mem_dependencies.mp hp
    exact h step hstep p.2 htarget

/-! ## 誤りの数 -/

theorem length_duplicateRoutes (es : List ApiEndpoint) :
    (duplicateRoutes es).length + (es.filterMap ApiEndpoint.route?).toFinset.card =
      (es.filterMap ApiEndpoint.route?).length := by
  induction es using List.reverseRecOn with
  | nil => rfl
  | append_singleton es e ih =>
      rw [duplicateRoutes_concat, List.length_append, List.filterMap_append]
      cases hroute : e.route? with
      | none => simpa [conflicting?, hroute] using ih
      | some route =>
          have hroutes : [e].filterMap ApiEndpoint.route? = [route] := by simp [hroute]
          have hfound : (conflicting? es e).toList.length =
              if route ∈ es.filterMap ApiEndpoint.route? then 1 else 0 := by
            rw [Option.length_toList]
            simp [isSome_conflicting?, hroute]
          rw [hroutes, card_toFinset_concat, hfound, List.length_append, List.length_singleton]
          split <;> omega

theorem length_missingDependencies (steps : List WorkflowStep) :
    (missingDependencies steps).length =
      ((dependencies steps).toFinset.filter fun p => p.2 ∉ ids steps).card := by
  obtain ⟨pairs, hnodup, hpairs, hmem⟩ := exists_missingDependencies steps
  have hfinset :
      (dependencies steps).toFinset.filter (fun p => p.2 ∉ ids steps) = pairs.toFinset := by
    ext p
    rw [Finset.mem_filter, List.mem_toFinset, List.mem_toFinset, hmem]
  rw [hpairs, List.length_map, hfinset, List.toFinset_card_of_nodup hnodup]

namespace Document

theorem check_eq_nil_iff (d : Document) : d.check = [] ↔ d.UniqueIds ∧
    d.apiEndpoints.Pairwise (fun e f => ¬SameRoute e f) ∧
    ∀ step ∈ d.workflowSteps, ∀ target ∈ step.dependsOn, target ∈ ids d.workflowSteps := by
  simp only [check, List.append_eq_nil_iff, duplicateIds_eq_nil_iff, duplicateRoutes_eq_nil_iff,
    missingDependencies_eq_nil_iff, uniqueIds_iff, and_assoc]

theorem countP_check_duplicateEndpoint (d : Document) :
    d.check.countP (·.code == .duplicateEndpoint) = (duplicateRoutes d.apiEndpoints).length := by
  rw [List.countP_eq_length_filter, filter_check]
  simp

end Document

/-- 検査は、先に現れた識別子や組を持つものごとに一つ、行き先のない依存の組ごとに一つ、現れる順に誤りを挙げ、ほかには
何も挙げない。 -/
theorem inconsistency_accounting (d : Document) :
    d.check =
      d.businessRules.withEarlier.filterMap (fun p => duplicated? p.1 p.2) ++
      d.dataStructures.withEarlier.filterMap (fun p => duplicated? p.1 p.2) ++
      d.apiEndpoints.withEarlier.filterMap (fun p => duplicated? p.1 p.2) ++
      d.workflowSteps.withEarlier.filterMap (fun p => duplicated? p.1 p.2) ++
      d.apiEndpoints.withEarlier.filterMap (fun p => conflicting? p.1 p.2) ++
      (dependencies d.workflowSteps).withEarlier.filterMap
        (fun p => missing? d.workflowSteps p.1 p.2) ∧
    (d.check = [] ↔ d.UniqueIds ∧ d.apiEndpoints.Pairwise (fun e f => ¬SameRoute e f) ∧
      ∀ step ∈ d.workflowSteps, ∀ target ∈ step.dependsOn, target ∈ ids d.workflowSteps) ∧
    (∀ kind, d.check.countP (·.code == .duplicateId kind) + (d.idsOf kind).toFinset.card =
      (d.idsOf kind).length) ∧
    d.check.countP (·.code == .duplicateEndpoint) +
        (d.apiEndpoints.filterMap ApiEndpoint.route?).toFinset.card =
      (d.apiEndpoints.filterMap ApiEndpoint.route?).length ∧
    d.check.countP (·.code == .missingDependency) =
      ((dependencies d.workflowSteps).toFinset.filter
        fun p => p.2 ∉ ids d.workflowSteps).card := by
  refine ⟨?_, d.check_eq_nil_iff, fun kind => ?_, ?_, ?_⟩
  · rw [Document.check, duplicateIds_eq, duplicateIds_eq, duplicateIds_eq, duplicateIds_eq,
      duplicateRoutes_eq, missingDependencies_eq]
  · rw [Document.countP_check_duplicateId]
    exact recurrences_add_card _
  · rw [Document.countP_check_duplicateEndpoint]
    exact length_duplicateRoutes _
  · rw [List.countP_eq_length_filter, Document.filter_check_missingDependency]
    exact length_missingDependencies _

end SpecLineage
