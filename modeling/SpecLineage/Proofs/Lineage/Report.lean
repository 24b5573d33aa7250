import SpecLineage.Lineage.Session

/-!
# 控えた診断

控えた誤りは、見つけた誤りを上限まで順に並べたものであり、越えた分は数だけが残る。警告はすべて残る。
-/

namespace SpecLineage

/-- 見つけた診断のうちの誤り。 -/
def errorsOf (ds : List Diagnostic) : List Diagnostic := ds.filter Diagnostic.isError

/-- 見つけた診断のうちの警告。 -/
def warningsOf (ds : List Diagnostic) : List Diagnostic := ds.filter fun d => !d.isError

/-- 上限まで書き留めた誤り。 -/
def capped (maxErrors : Option Nat) (es : List Diagnostic) : List Diagnostic :=
  match maxErrors with
  | some cap => es.take cap
  | none => es

@[simp] theorem capped_none (es : List Diagnostic) : capped none es = es := rfl

@[simp] theorem errorsOf_append (ds es : List Diagnostic) :
    errorsOf (ds ++ es) = errorsOf ds ++ errorsOf es := List.filter_append ..

@[simp] theorem warningsOf_append (ds es : List Diagnostic) :
    warningsOf (ds ++ es) = warningsOf ds ++ warningsOf es := List.filter_append ..

theorem capped_length_le (maxErrors : Option Nat) (es : List Diagnostic) :
    (capped maxErrors es).length ≤ es.length := by
  cases maxErrors with
  | none => exact Nat.le_refl _
  | some cap => exact List.length_take_le' cap es

/-- 書き留めた誤りは、見つけた誤りの初めの部分である。 -/
theorem exists_capped_append (limit : Option Nat) (es : List Diagnostic) :
    ∃ dropped, es = capped limit es ++ dropped := by
  cases limit with
  | none => exact ⟨[], (List.append_nil es).symm⟩
  | some cap => exact ⟨es.drop cap, (List.take_append_drop cap es).symm⟩

theorem mem_of_mem_capped {limit : Option Nat} {es : List Diagnostic} {e : Diagnostic}
    (h : e ∈ capped limit es) : e ∈ es := by
  cases limit with
  | none => exact h
  | some cap => exact List.mem_of_mem_take h

namespace Session

/-- 診断を控えても、診断の三つの欄のほかは変わらない。 -/
theorem record_eq (s : Session) (d : Diagnostic) : s.record d =
    { s with
      errors := if d.isError && !s.isFull then s.errors ++ [d] else s.errors
      warnings := if d.isError then s.warnings else s.warnings ++ [d]
      suppressed := if d.isError && s.isFull then s.suppressed + 1 else s.suppressed } := by
  unfold record
  cases d.isError <;> cases s.isFull <;> rfl

theorem record_enter (s : Session) (l : Location) (d : Diagnostic) :
    (s.enter l).record d = (s.record d).enter l := by
  rw [record_eq, record_eq]
  rfl

@[simp] theorem stack_record (s : Session) (d : Diagnostic) : (s.record d).stack = s.stack := by
  rw [record_eq]

@[simp] theorem stack_recordAll (s : Session) (ds : List Diagnostic) :
    (s.recordAll ds).stack = s.stack := by
  induction ds generalizing s with
  | nil => rfl
  | cons d ds ih => exact (ih (s.record d)).trans (s.stack_record d)

/-- 上限が `limit` で、診断 `ds` を順に控えた後の控え。 -/
structure Recorded (limit : Option Nat) (ds : List Diagnostic) (s : Session) : Prop where
  maxErrors : s.maxErrors = limit
  errors : s.errors = capped limit (errorsOf ds)
  warnings : s.warnings = warningsOf ds
  suppressed : s.suppressed = (errorsOf ds).length - s.errors.length

variable {s : Session} {limit : Option Nat} {ds : List Diagnostic}

theorem Recorded.start (s : Session) (hm : s.maxErrors = limit) (he : s.errors = [])
    (hw : s.warnings = []) (hs : s.suppressed = 0) : Recorded limit [] s := by
  refine ⟨hm, ?_, hw, by simp [hs, errorsOf]⟩
  cases limit <;> simp [he, errorsOf, capped]

/-- 上限に達した後の誤りは、数だけが増える。 -/
theorem Recorded.full (h : Recorded limit ds s) (hfull : s.isFull = true) (d : Diagnostic) :
    capped limit (errorsOf ds ++ [d]) = s.errors := by
  rw [h.errors]
  cases hm : limit with
  | none => simp [isFull, h.maxErrors, hm] at hfull
  | some cap =>
      have hcap : cap ≤ (capped (some cap) (errorsOf ds)).length := by
        simpa [isFull, h.maxErrors, hm, h.errors] using hfull
      exact List.take_append_of_le_length
        (Nat.le_trans hcap (capped_length_le (some cap) (errorsOf ds)))

/-- 上限に達するまでは、見つけた誤りをすべて書き留めている。 -/
theorem Recorded.not_full (h : Recorded limit ds s) (hfull : s.isFull = false) :
    s.errors = errorsOf ds ∧ ∀ d, capped limit (errorsOf ds ++ [d]) = errorsOf ds ++ [d] := by
  have he := h.errors
  cases hm : limit with
  | none => exact ⟨by rw [he, hm]; rfl, fun d => rfl⟩
  | some cap =>
      simp only [isFull, h.maxErrors, hm, decide_eq_false_iff_not, Nat.not_le] at hfull
      have hlen : s.errors.length = min cap (errorsOf ds).length := by
        rw [he, hm]
        exact List.length_take
      have hlt : (errorsOf ds).length < cap := by omega
      refine ⟨?_, fun d => ?_⟩
      · rw [he, hm]
        exact List.take_of_length_le (by omega)
      · exact List.take_of_length_le (by simp only [List.length_append, List.length_singleton]; omega)

theorem Recorded.record (h : Recorded limit ds s) (d : Diagnostic) :
    Recorded limit (ds ++ [d]) (s.record d) := by
  have hm : (s.record d).maxErrors = limit := by rw [record_eq]; exact h.maxErrors
  cases hd : d.isError with
  | false =>
      have hs : s.record d = { s with warnings := s.warnings ++ [d] } := by simp [record_eq, hd]
      have herrors : errorsOf (ds ++ [d]) = errorsOf ds := by simp [errorsOf, hd]
      refine ⟨hm, ?_, ?_, ?_⟩
      · rw [hs, herrors]; exact h.errors
      · simp [hs, warningsOf, hd, h.warnings]
      · rw [hs, herrors]; exact h.suppressed
  | true =>
      have herrors : errorsOf (ds ++ [d]) = errorsOf ds ++ [d] := by simp [errorsOf, hd]
      have hwarnings : warningsOf (ds ++ [d]) = warningsOf ds := by simp [warningsOf, hd]
      cases hfull : s.isFull with
      | true =>
          have hs : s.record d = { s with suppressed := s.suppressed + 1 } := by
            simp [record_eq, hd, hfull]
          have hle : s.errors.length ≤ (errorsOf ds).length := by
            rw [h.errors]; exact capped_length_le _ _
          refine ⟨hm, ?_, ?_, ?_⟩
          · rw [hs, herrors, h.full hfull d]
          · rw [hs, hwarnings]; exact h.warnings
          · rw [hs, herrors]
            simp only [List.length_append, List.length_singleton, h.suppressed]
            omega
      | false =>
          have hs : s.record d = { s with errors := s.errors ++ [d] } := by
            simp [record_eq, hd, hfull]
          obtain ⟨hall, hcapped⟩ := h.not_full hfull
          refine ⟨hm, ?_, ?_, ?_⟩
          · rw [hs, herrors, hcapped d, hall]
          · rw [hs, hwarnings]; exact h.warnings
          · rw [hs, herrors]
            simp [h.suppressed, hall]

theorem Recorded.recordAll (h : Recorded limit ds s) (es : List Diagnostic) :
    Recorded limit (ds ++ es) (s.recordAll es) := by
  induction es generalizing ds s with
  | nil => simpa [Session.recordAll] using h
  | cons e es ih => simpa [Session.recordAll] using ih (h.record e)

theorem Recorded.isValid (h : Recorded limit ds s) : s.isValid = (errorsOf ds).isEmpty := by
  cases he : errorsOf ds with
  | nil =>
      have hnil : s.errors = [] := by
        rw [h.errors, he]
        cases limit <;> simp [capped]
      simp [Session.isValid, hnil, h.suppressed, he]
  | cons e es =>
      -- 上限が零でも、書き留めなかった誤りの数が残る。
      cases hs : s.errors with
      | nil => simp [Session.isValid, hs, h.suppressed, he]
      | cons x xs => simp [Session.isValid, hs]

end Session
end SpecLineage
