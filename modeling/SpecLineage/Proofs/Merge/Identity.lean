import SpecLineage.Proofs.Merge.Document
import SpecLineage.Proofs.Merge.Section

/-!
# 重ねることの単位元

空の文書は、下に置いても上に置いても、重ねる文書を変えない。ただし上に置けば、親への参照は空の文書のものになる。下に置くには、
つなぐ重ねかたのほかでは、上の文書が識別子を繰り返してはならない。
-/

namespace SpecLineage

@[simp] theorem pick_none_left {α : Type} (above : Option α) : pick none above = above := by
  cases above <;> rfl

@[simp] theorem pick_none_right {α : Type} (base : Option α) : pick base none = base := rfl

@[simp] theorem none_combine {α : Type} [Combine α] (above : Option α) :
    Combine.combine none above = above := rfl

theorem Metadata.empty_combine (above : Metadata) : Combine.combine {} above = above := by
  simp [Combine.combine]

theorem Metadata.combine_empty (base : Metadata) : Combine.combine base {} = base := by
  simp [Combine.combine]

variable {strategy : Strategy}

theorem mergeCollection_of_empty {α : Type} [Entity α] [Combine α] {above : List α}
    (h : strategy ≠ .append → (ids above).Nodup) : mergeCollection strategy [] above = above := by
  by_cases hs : strategy = .append
  · rw [hs, mergeCollection_append, List.nil_append]
  · exact mergeCollection_of_nodup (h hs)

namespace Document

theorem uniqueIds_empty : ({} : Document).UniqueIds :=
  ⟨List.nodup_nil, List.nodup_nil, List.nodup_nil, List.nodup_nil⟩

theorem merge_of_empty {d : Document} (h : strategy ≠ .append → d.UniqueIds) :
    Document.merge strategy {} d = d := by
  have hrules := mergeCollection_of_empty fun hs => (h hs).businessRules
  have hstructures := mergeCollection_of_empty fun hs => (h hs).dataStructures
  have hendpoints := mergeCollection_of_empty fun hs => (h hs).apiEndpoints
  have hsteps := mergeCollection_of_empty fun hs => (h hs).workflowSteps
  simp only [Document.merge, Metadata.empty_combine, none_combine, hrules, hstructures, hendpoints,
    hsteps, List.nil_append]

/-- 空の文書の上に置いて変わらないのは、識別子を繰り返さない文書だけである。 -/
theorem empty_merge_eq_iff {d : Document} :
    Document.merge strategy {} d = d ↔ (strategy ≠ .append → d.UniqueIds) := by
  refine ⟨fun h hs => ?_, merge_of_empty⟩
  have hunique := uniqueIds_empty.merge hs d
  rwa [h] at hunique

theorem merge_empty (d : Document) : Document.merge strategy d {} = d.withoutParents := by
  simp only [Document.merge, Metadata.combine_empty, combine_none, mergeCollection_nil,
    List.append_nil]
  rfl

end Document

/-- 文書を重ねる順は、間の文書が識別子を繰り返さなければまとめ替えてよく、空の文書は重ねる文書を変えない。 -/
theorem document_merge_laws (strategy : Strategy) :
    (∀ a b c : Document, (strategy ≠ .append → b.UniqueIds) →
      Document.merge strategy (Document.merge strategy a b) c =
        Document.merge strategy a (Document.merge strategy b c)) ∧
    (∀ d : Document,
      Document.merge strategy {} d = d ↔ (strategy ≠ .append → d.UniqueIds)) ∧
    ∀ d : Document, Document.merge strategy d {} = d.withoutParents :=
  ⟨fun a _ c hb => Document.merge_assoc a c hb, fun _ => Document.empty_merge_eq_iff,
    Document.merge_empty⟩

/-- 間の文書 `b` が識別子を繰り返さなければ、`a` と `c` は繰り返してよい。 -/
theorem document_merge_laws_repeating :
    let a : Document := {
      parents := ["p"]
      businessRules := [{ id := "x" }, { id := "x", name := some "a" }]
      aiContext := some { modelHints := ["h", "h"] } }
    let b : Document := {
      parents := ["q"]
      businessRules := [{ id := "y" }, { id := "x", exceptions := ["b"] }]
      aiContext := some { modelHints := ["h", "k"] } }
    let c : Document := {
      parents := ["r"]
      businessRules := [{ id := "y", name := some "c" }, { id := "y", action := some "c" }] }
    b.UniqueIds ∧ ¬a.UniqueIds ∧ ¬c.UniqueIds ∧
      Document.merge .merge (Document.merge .merge a b) c =
        Document.merge .merge a (Document.merge .merge b c) ∧
      Document.merge .merge {} b = b ∧ Document.merge .merge {} a ≠ a ∧
      Document.merge .merge a {} = { a with parents := [] } := by
  intro a b c
  have hb : b.UniqueIds := by decide +kernel
  have ha : ¬a.UniqueIds := by decide +kernel
  obtain ⟨hassoc, hleft, hright⟩ := document_merge_laws .merge
  exact ⟨hb, ha, by decide +kernel, hassoc a b c fun _ => hb, (hleft b).mpr fun _ => hb,
    fun h => ha ((hleft a).mp h (by decide)), hright a⟩

end SpecLineage
