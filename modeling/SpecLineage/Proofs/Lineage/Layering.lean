import SpecLineage.Proofs.Lineage.Stacking
import SpecLineage.Proofs.Merge.Collection

/-!
# 重ねた文書の列

系譜の解決は、解いた親を積み上げた結果の下に入れ子に重ねていく。まとめ替えられる重ねかたなら、それは、重ねた
文書を勝つ順に一列に並べ、下から順に重ねたものに等しい。
-/

namespace SpecLineage

variable {β : Type} {op : β → β → β}

/-- 上から順に並べたものを、下から順に重ねたもの。`op` は上のものを下のものに重ねる。 -/
def layered (op : β → β → β) (top : β) : List β → β
  | [] => top
  | below :: rest => op (layered op below rest) top

/-- 文書から読み取るものの重ねかた。間に置くものが `Good` なら、重ねる順をまとめ替えてよい。 -/
structure Layers (strategy : Strategy) (proj : Document → β) (op : β → β → β) (Good : β → Prop) :
    Prop where
  merge (base above : Document) :
    proj (Document.merge strategy base above) = op (proj base) (proj above)
  assoc (a b c : β) : Good b → op (op a b) c = op a (op b c)
  good (a b : β) : Good a → Good (op a b)

namespace Layers

variable {strategy : Strategy} {proj : Document → β} {Good : β → Prop}

theorem good_layered (h : Layers strategy proj op Good) (top : β) (rest : List β)
    (htop : Good top) (hrest : ∀ b ∈ rest, Good b) : Good (layered op top rest) := by
  induction rest generalizing top with
  | nil => exact htop
  | cons below rest ih =>
      obtain ⟨hbelow, hrest⟩ := List.forall_mem_cons.mp hrest
      exact h.good _ top (ih below hbelow hrest)

theorem layered_append (h : Layers strategy proj op Good) (top : β) (upper : List β)
    (hupper : ∀ b ∈ upper, Good b) (below : β) (lower : List β) :
    layered op top (upper ++ below :: lower) =
      op (layered op below lower) (layered op top upper) := by
  induction upper generalizing top with
  | nil => rfl
  | cons b upper ih =>
      obtain ⟨hb, hupper⟩ := List.forall_mem_cons.mp hupper
      have hgood := h.good_layered b upper hb hupper
      rw [List.cons_append, layered, ih b hupper, h.assoc _ _ _ hgood]
      rfl

/-- 積み重ねた文書から読み取るものは、どこから重ねても、列から読み取るものを一列に重ねたものである。 -/
theorem stacked (h : Layers strategy proj op Good) {layers : List Document} {x : Document}
    (hx : Stacked strategy layers x) : ∀ {top : Document} {rest : List Document},
    layers = top :: rest → (∀ d ∈ rest, Good (proj d)) →
      proj x = layered op (proj top) (rest.map proj) := by
  induction hx with
  | single d =>
      rintro top rest ⟨⟩ _
      rfl
  | merge habove hbase ihabove ihbase =>
      intro top rest hlayers hgood
      -- 上の部分の先頭が列の先頭であり、下の部分の先頭は、間に置くものになる。
      obtain ⟨above, upper, rfl, -⟩ := habove.exists_top
      obtain ⟨below, lower, rfl, -⟩ := hbase.exists_top
      rw [List.cons_append, List.cons.injEq] at hlayers
      obtain ⟨rfl, rfl⟩ := hlayers
      rw [List.forall_mem_append] at hgood
      obtain ⟨hupper, hlower⟩ := hgood
      rw [h.merge, ihabove rfl hupper, ihbase rfl fun d hd => hlower d (List.mem_cons_of_mem _ hd),
        List.map_append, List.map_cons,
        h.layered_append _ _ (List.forall_mem_map.mpr hupper)]

theorem resolved {r : Resolver} (h : Layers r.options.strategy proj op Good) (d : Document)
    (base : String) (hgood : ∀ v ∈ r.visits d base, Good (proj v.document)) :
    proj (r.resolved d base) =
      layered op (proj d) ((r.visits d base).map fun v => proj v.document) := by
  have hstacked := h.stacked (r.stacked_resolved d base) rfl (List.forall_mem_map.mpr hgood)
  rwa [List.map_map] at hstacked

end Layers

/-- 実体の並びを重ねるとき、まとめ替えには、間の並びの識別子が重ならないことだけがいる。 -/
theorem layers_collection {α : Type} [Entity α] [Combine α] [LawfulCombine α]
    {collection : Document → List α} {strategy : Strategy}
    (h : ∀ base above : Document, collection (Document.merge strategy base above) =
      mergeCollection strategy (collection base) (collection above)) :
    Layers strategy collection (mergeCollection strategy)
      fun es => strategy ≠ .append → (ids es).Nodup where
  merge := h
  assoc base _ above hmiddle := mergeCollection_assoc base above hmiddle
  good _ above hbase hs := nodup_mergeCollection hs (hbase hs) above

end SpecLineage
