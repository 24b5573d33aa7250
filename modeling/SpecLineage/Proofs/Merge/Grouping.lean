import SpecLineage.Proofs.Merge.Collection

/-!
# 並びを重ねることは、識別子ごとにまとめることである

並びを重ねた結果は、実体を一つずつ置く過程を追わずに、識別子ごとにまとめて書ける。下の並びで識別子が初めに現れる実体は、
上の並びの同じ識別子の実体とまとまり、下の並びのほかの実体はそのまま残る。下の並びにない識別子は、上の並びに初めに現れた順に
一つずつ後に続く。識別子は、下の並びでも上の並びでも繰り返してよい。
-/

namespace SpecLineage

variable {α : Type} [Entity α]

/-- 識別子 `i` を持つ実体だけを、並びの順に残したもの。 -/
def sharing (es : List α) (i : String) : List α := es.filter fun e => Entity.id e == i

theorem sharing_concat (es : List α) (e : α) (i : String) : sharing (es ++ [e]) i =
    if Entity.id e = i then sharing es i ++ [e] else sharing es i := by
  rw [sharing, List.filter_append]
  by_cases h : Entity.id e = i <;> simp [h, sharing]

theorem id_of_mem_sharing {es : List α} {i : String} {e : α} (h : e ∈ sharing es i) :
    Entity.id e = i := eq_of_beq (List.mem_filter.mp h).2

theorem sharing_eq_nil_iff {es : List α} {i : String} : sharing es i = [] ↔ i ∉ ids es := by
  rw [sharing, List.filter_eq_nil_iff, ids, List.mem_map]
  simp

/-! ## 識別子ごとにまとめた並び -/

section Grouped

/-! `group x es` は、初めの実体 `x` と、続く同じ識別子の実体 `es` とを一つにまとめる。 -/

variable (group : α → List α → α)

/-- 下の並びで識別子が初めに現れる実体だけを、上の並びの同じ識別子の実体とまとめたもの。 -/
def regrouped (base above : List α) : List α :=
  base.withEarlier.map fun p =>
    if Entity.id p.2 ∈ ids p.1 then p.2 else group p.2 (sharing above (Entity.id p.2))

/-- 下の並びにない識別子を、上の並びに初めに現れた順に一つずつ挙げたもの。 -/
def freshIds (base above : List α) : List String :=
  (ids above).eraseDups.filter fun i => i ∉ ids base

/-- 並びの、識別子 `i` を持つ実体をまとめたもの。 -/
def gathered? (es : List α) (i : String) : Option α :=
  match sharing es i with
  | [] => none
  | e :: rest => some (group e rest)

/-- 上の並びの実体を、識別子ごとにまとめて下の並びに重ねたもの。 -/
def grouped (base above : List α) : List α :=
  regrouped group base above ++ (freshIds base above).filterMap (gathered? group above)

variable {group}

theorem regrouped_nil (hgroup : ∀ x, group x [] = x) (base : List α) :
    regrouped group base [] = base := by
  have hmap : base.withEarlier.map (fun p => p.2) = base :=
    (List.map_withEarlier id base).trans (List.map_id base)
  refine (List.map_congr_left fun p _ => ?_).trans hmap
  exact ite_eq_left_iff.mpr fun _ => hgroup p.2

theorem regrouped_concat_of_notMem {base : List α} {e : α} (h : Entity.id e ∉ ids base)
    (above : List α) : regrouped group base (above ++ [e]) = regrouped group base above := by
  refine List.map_congr_left fun p hp => ?_
  have hne : Entity.id e ≠ Entity.id p.2 := fun heq =>
    h (heq ▸ List.mem_map_of_mem (List.mem_of_mem_withEarlier hp))
  rw [sharing_concat, if_neg hne]

/-- 識別子が初めに現れる実体を境に分ければ、境の実体は上の並びの実体とまとまる。 -/
theorem regrouped_split {before after : List α} {x : α} (h : Entity.id x ∉ ids before)
    (above : List α) : regrouped group (before ++ x :: after) above =
      regrouped group before above ++ group x (sharing above (Entity.id x)) ::
        after.withEarlier.map fun p =>
          if Entity.id p.2 ∈ ids (before ++ x :: p.1) then p.2
          else group p.2 (sharing above (Entity.id p.2)) := by
  rw [regrouped, List.withEarlier_append, List.withEarlier_cons]
  simp [regrouped, h]

theorem mem_freshIds {base above : List α} {i : String} :
    i ∈ freshIds base above ↔ i ∈ ids above ∧ i ∉ ids base := by
  rw [freshIds, List.mem_filter, List.mem_eraseDups, decide_eq_true_eq]

theorem freshIds_concat (base above : List α) (e : α) : freshIds base (above ++ [e]) =
    if Entity.id e ∈ ids base ∨ Entity.id e ∈ ids above then freshIds base above
    else freshIds base above ++ [Entity.id e] := by
  rw [freshIds, ids_append, ids_cons, ids_nil, List.eraseDups_concat]
  by_cases habove : Entity.id e ∈ ids above
  · rw [if_pos habove, if_pos (Or.inr habove)]
    rfl
  · rw [if_neg habove, List.filter_append]
    by_cases hbase : Entity.id e ∈ ids base <;> simp [hbase, habove, freshIds]

/-- 初めて現れる識別子は一つずつしか挙がらないから、その前にも後にも現れない。 -/
theorem exists_freshIds_split {base above : List α} {i : String} (h : i ∈ freshIds base above) :
    ∃ before after, freshIds base above = before ++ i :: after ∧ i ∉ before ∧ i ∉ after := by
  obtain ⟨before, after, hsplit⟩ := List.append_of_mem h
  have hnodup : (freshIds base above).Nodup := (List.nodup_eraseDups _).filter _
  rw [hsplit, List.nodup_middle, List.nodup_cons, List.mem_append, not_or] at hnodup
  exact ⟨before, after, hsplit, hnodup.1⟩

end Grouped

/-! ## 実体を順に突き合わせる -/

variable [Combine α] {strategy : Strategy}

/-- 実体に、続く実体を順に突き合わせたもの。 -/
def blendAll (strategy : Strategy) (x : α) (es : List α) : α := es.foldl (blend strategy) x

section

omit [Entity α]

theorem blendAll_concat (x : α) (es : List α) (e : α) :
    blendAll strategy x (es ++ [e]) = blend strategy (blendAll strategy x es) e :=
  List.foldl_append ..

theorem blendAll_override (x : α) (es : List α) : blendAll .override x es = es.getLastD x := by
  induction es using List.reverseRecOn with
  | nil => rfl
  | append_singleton es e ih => rw [blendAll_concat, List.getLastD_concat]; rfl

end

theorem gathered?_concat (es : List α) (e : α) (i : String) :
    gathered? (blendAll strategy) (es ++ [e]) i =
      if Entity.id e = i then blend? strategy (gathered? (blendAll strategy) es i) (some e)
      else gathered? (blendAll strategy) es i := by
  rw [gathered?, gathered?, sharing_concat]
  by_cases h : Entity.id e = i
  · rw [if_pos h, if_pos h]
    cases sharing es i with
    | nil => rfl
    | cons x rest => exact congrArg some (blendAll_concat x rest e)
  · rw [if_neg h, if_neg h]

theorem filterMap_gathered_concat {is : List String} {e : α} (h : Entity.id e ∉ is) (es : List α) :
    is.filterMap (gathered? (blendAll strategy) (es ++ [e])) =
      is.filterMap (gathered? (blendAll strategy) es) := by
  refine List.filterMap_congr fun i hi => ?_
  have hne : Entity.id e ≠ i := fun heq => h (heq ▸ hi)
  rw [gathered?_concat, if_neg hne]

theorem place_append_of_notMem {xs ys : List α} {e : α} (h : Entity.id e ∉ ids xs) :
    place strategy (xs ++ ys) e = xs ++ place strategy ys e := by
  induction xs with
  | nil => rfl
  | cons x xs ih =>
      rw [ids_cons, List.mem_cons, not_or] at h
      rw [List.cons_append, place_cons_of_ne (Ne.symm h.1), ih h.2]
      rfl

theorem place_append_of_mem (hs : strategy ≠ .append) {xs ys : List α} {e : α}
    (h : Entity.id e ∈ ids xs) : place strategy (xs ++ ys) e = place strategy xs e ++ ys := by
  obtain ⟨before, x, after, rfl, hx, hbefore⟩ := exists_split h
  rw [place_split hs hbefore hx, List.append_assoc, List.cons_append, place_split hs hbefore hx,
    List.append_assoc, List.cons_append]

section Lawful

variable [LawfulCombine α]

theorem id_blendAll {x : α} {es : List α} (h : ∀ e ∈ es, Entity.id e = Entity.id x) :
    Entity.id (blendAll strategy x es) = Entity.id x := by
  induction es using List.reverseRecOn with
  | nil => rfl
  | append_singleton es e ih =>
      have hes := ih fun f hf => h f (List.mem_append_left _ hf)
      have he : Entity.id e = Entity.id x := h e (by simp)
      rw [blendAll_concat, id_blend (hes.trans he.symm), hes]

theorem ids_regrouped (base above : List α) :
    ids (regrouped (blendAll strategy) base above) = ids base := by
  rw [ids, regrouped, List.map_map, ids, ← List.map_withEarlier Entity.id base]
  refine List.map_congr_left fun p _ => ?_
  rw [Function.comp_apply]
  split
  · rfl
  · exact id_blendAll fun e he => id_of_mem_sharing he

variable (strategy) in
theorem exists_gathered? {es : List α} {i : String} (h : i ∈ ids es) :
    ∃ x, gathered? (blendAll strategy) es i = some x ∧ Entity.id x = i := by
  cases hes : sharing es i with
  | nil => exact absurd h (sharing_eq_nil_iff.mp hes)
  | cons e rest =>
      have hall : ∀ f ∈ e :: rest, Entity.id f = i := fun f hf => id_of_mem_sharing (hes ▸ hf)
      obtain ⟨he, hrest⟩ := List.forall_mem_cons.mp hall
      refine ⟨blendAll strategy e rest, by rw [gathered?, hes], ?_⟩
      rw [id_blendAll fun f hf => (hrest f hf).trans he.symm, he]

theorem ids_filterMap_gathered {es : List α} {is : List String} (h : ∀ i ∈ is, i ∈ ids es) :
    ids (is.filterMap (gathered? (blendAll strategy) es)) = is := by
  induction is with
  | nil => rfl
  | cons i is ih =>
      obtain ⟨hi, his⟩ := List.forall_mem_cons.mp h
      obtain ⟨x, hx, hid⟩ := exists_gathered? strategy hi
      rw [List.filterMap_cons, hx, ids_cons, hid, ih his]

theorem ids_grouped (base above : List α) :
    ids (grouped (blendAll strategy) base above) = ids base ++ freshIds base above := by
  rw [grouped, ids_append, ids_regrouped,
    ids_filterMap_gathered fun i hi => (mem_freshIds.mp hi).1]

/-! ## まとめた並びに実体を一つ置く -/

theorem place_regrouped (hs : strategy ≠ .append) {base : List α} {e : α}
    (h : Entity.id e ∈ ids base) (above : List α) :
    place strategy (regrouped (blendAll strategy) base above) e =
      regrouped (blendAll strategy) base (above ++ [e]) := by
  obtain ⟨before, x, after, rfl, hx, hbefore⟩ := exists_split h
  have hfresh : Entity.id e ∉ ids (regrouped (blendAll strategy) before above) := by
    rwa [ids_regrouped]
  have hid : Entity.id (blendAll strategy x (sharing above (Entity.id x))) = Entity.id e :=
    (id_blendAll fun f hf => id_of_mem_sharing hf).trans hx
  rw [regrouped_split (hx ▸ hbefore), regrouped_split (hx ▸ hbefore), place_split hs hfresh hid,
    regrouped_concat_of_notMem hbefore, sharing_concat, if_pos hx.symm, blendAll_concat]
  congr 2
  refine List.map_congr_left fun p _ => ?_
  split
  · rfl
  · rename_i hnew
    -- `e` の識別子は `x` のものとして先に現れているから、ここには現れない。
    have hne : Entity.id e ≠ Entity.id p.2 := fun heq => hnew (by simp [← heq, hx])
    rw [sharing_concat, if_neg hne]

theorem place_gathered (hs : strategy ≠ .append) {base above : List α} {e : α}
    (h : Entity.id e ∉ ids base) :
    place strategy ((freshIds base above).filterMap (gathered? (blendAll strategy) above)) e =
      (freshIds base (above ++ [e])).filterMap (gathered? (blendAll strategy) (above ++ [e])) := by
  have hids : ∀ i ∈ freshIds base above, i ∈ ids above := fun i hi => (mem_freshIds.mp hi).1
  rw [freshIds_concat]
  by_cases habove : Entity.id e ∈ ids above
  · -- 上の並びに先に現れた識別子なら、まとめた実体に突き合わせる。
    obtain ⟨before, after, hsplit, hbefore, hafter⟩ :=
      exists_freshIds_split (mem_freshIds.mpr ⟨habove, h⟩)
    obtain ⟨x, hx, hid⟩ := exists_gathered? strategy habove
    have hfresh : Entity.id e ∉ ids (before.filterMap (gathered? (blendAll strategy) above)) := by
      rwa [ids_filterMap_gathered fun i hi => hids i (hsplit ▸ List.mem_append_left _ hi)]
    rw [if_pos (Or.inr habove), hsplit, List.filterMap_append, List.filterMap_append,
      List.filterMap_cons, List.filterMap_cons, filterMap_gathered_concat hbefore,
      filterMap_gathered_concat hafter, gathered?_concat, if_pos rfl, hx,
      place_split hs hfresh hid]
    rfl
  · have hnew : Entity.id e ∉ freshIds base above := fun hmem => habove (hids _ hmem)
    have hnone : gathered? (blendAll strategy) above (Entity.id e) = none := by
      rw [gathered?, sharing_eq_nil_iff.mpr habove]
    have hfresh : Entity.id e ∉
        ids ((freshIds base above).filterMap (gathered? (blendAll strategy) above)) := by
      rwa [ids_filterMap_gathered hids]
    rw [if_neg (not_or.mpr ⟨h, habove⟩), List.filterMap_append, filterMap_gathered_concat hnew,
      place_of_notMem hfresh, List.filterMap_cons, gathered?_concat, if_pos rfl, hnone]
    rfl

theorem place_grouped (hs : strategy ≠ .append) (base above : List α) (e : α) :
    place strategy (grouped (blendAll strategy) base above) e =
      grouped (blendAll strategy) base (above ++ [e]) := by
  rw [grouped, grouped]
  by_cases h : Entity.id e ∈ ids base
  · have hmem : Entity.id e ∈ ids (regrouped (blendAll strategy) base above) := by
      rwa [ids_regrouped]
    have hfresh : Entity.id e ∉ freshIds base above := fun hmem => (mem_freshIds.mp hmem).2 h
    rw [place_append_of_mem hs hmem, place_regrouped hs h, freshIds_concat, if_pos (Or.inl h),
      filterMap_gathered_concat hfresh]
  · have hnotMem : Entity.id e ∉ ids (regrouped (blendAll strategy) base above) := by
      rwa [ids_regrouped]
    rw [place_append_of_notMem hnotMem, place_gathered hs h, regrouped_concat_of_notMem h]

/-- 上の並びを途中まで置いた並びは、そこまでを識別子ごとにまとめたものである。 -/
theorem mergeCollection_eq_blendAll (hs : strategy ≠ .append) (base above : List α) :
    mergeCollection strategy base above = grouped (blendAll strategy) base above := by
  induction above using List.reverseRecOn with
  | nil => rw [grouped, regrouped_nil fun _ => rfl]; exact (List.append_nil base).symm
  | append_singleton above e ih => rw [mergeCollection_concat, ih, ← place_grouped hs]; rfl

/-- 重ねた並びは、識別子ごとに、置き換えるなら最後の実体に、項目ごとに重ねるなら左から順に重ねたものにまとめた並びである。 -/
theorem mergeCollection_eq_grouped (base above : List α) :
    mergeCollection .append base above = base ++ above ∧
    mergeCollection .override base above = grouped (fun x es => es.getLastD x) base above ∧
    mergeCollection .merge base above =
      grouped (fun x es => es.foldl Combine.combine x) base above ∧
    ∀ strategy, strategy ≠ .append →
      ids (mergeCollection strategy base above) = ids base ++ freshIds base above := by
  have hlast : blendAll .override = fun (x : α) es => es.getLastD x := by
    funext x es
    exact blendAll_override x es
  refine ⟨mergeCollection_append base above, ?_, ?_, fun strategy hs => ?_⟩
  · rw [mergeCollection_eq_blendAll (by decide), hlast]
  · exact mergeCollection_eq_blendAll (by decide) base above
  · rw [mergeCollection_eq_blendAll hs, ids_grouped]

end Lawful

/-- 下の並びで繰り返す `x` は初めのものだけがまとまり、上の並びで繰り返す `z` は一つになる。 -/
theorem mergeCollection_eq_grouped_tangled :
    let base : List BusinessRule :=
      [{ id := "x", name := some "a" }, { id := "y" }, { id := "x", exceptions := ["0"] }]
    let above : List BusinessRule :=
      [{ id := "z", exceptions := ["1"] }, { id := "x", action := some "p", exceptions := ["2"] },
        { id := "z", name := some "q" }, { id := "x", name := some "b", exceptions := ["3"] }]
    mergeCollection .append base above = base ++ above ∧
    mergeCollection .override base above =
      [{ id := "x", name := some "b", exceptions := ["3"] }, { id := "y" },
        { id := "x", exceptions := ["0"] }, { id := "z", name := some "q" }] ∧
    mergeCollection .merge base above =
      [{ id := "x", name := some "b", action := some "p", exceptions := ["2", "3"] }, { id := "y" },
        { id := "x", exceptions := ["0"] }, { id := "z", name := some "q", exceptions := ["1"] }] ∧
    ids (mergeCollection .merge base above) = ["x", "y", "x", "z"] := by
  intro base above
  obtain ⟨happend, hoverride, hmerge, hids⟩ := mergeCollection_eq_grouped base above
  exact ⟨happend, hoverride.trans (by decide +kernel), hmerge.trans (by decide +kernel),
    (hids .merge (by decide)).trans (by decide +kernel)⟩

end SpecLineage
