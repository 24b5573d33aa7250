import SpecLineage.Merge.Basic
import SpecLineage.Proofs.Distinct
import SpecLineage.Proofs.Merge.Entity

/-!
# 並びを重ねる

実体を置く場所は識別子だけで決まり、置いた後の識別子の並びには、新しい識別子だけが末尾に加わる。間に置く並びの
識別子が重ならなければ、重ねる順はまとめ替えてよく、識別子で引けば、上と下で引いたものを重ねたものになる。
-/

namespace SpecLineage

variable {α : Type} [Entity α]

/-- 並びの識別子。 -/
def ids (es : List α) : List String := es.map Entity.id

@[simp] theorem ids_nil : ids ([] : List α) = [] := rfl

@[simp] theorem ids_cons (e : α) (es : List α) : ids (e :: es) = Entity.id e :: ids es := rfl

@[simp] theorem ids_append (xs ys : List α) : ids (xs ++ ys) = ids xs ++ ids ys := List.map_append

theorem exists_split {es : List α} {i : String} (h : i ∈ ids es) :
    ∃ before x after, es = before ++ x :: after ∧ Entity.id x = i ∧ i ∉ ids before := by
  induction es with
  | nil => cases h
  | cons e es ih =>
      by_cases he : Entity.id e = i
      · exact ⟨[], e, es, rfl, he, List.not_mem_nil⟩
      · have hes : i ∈ ids es := (List.mem_cons.mp h).resolve_left (Ne.symm he)
        obtain ⟨before, x, after, rfl, hx, hbefore⟩ := ih hes
        refine ⟨e :: before, x, after, rfl, hx, ?_⟩
        rw [ids_cons, List.mem_cons, not_or]
        exact ⟨Ne.symm he, hbefore⟩

theorem find?_cons (x : α) (xs : List α) (i : String) : Document.find? (x :: xs) i =
    if Entity.id x = i then some x else Document.find? xs i := by
  rw [Document.find?, List.find?_cons]
  by_cases hx : Entity.id x = i
  · have hbeq : (Entity.id x == i) = true := by simpa using hx
    rw [hbeq, if_pos hx]
  · have hbeq : (Entity.id x == i) = false := by simpa using hx
    rw [hbeq, if_neg hx]
    rfl

theorem find?_of_notMem {es : List α} {i : String} (h : i ∉ ids es) : Document.find? es i = none := by
  rw [Document.find?, List.find?_eq_none]
  intro e he heq
  exact h (List.mem_map.mpr ⟨e, he, eq_of_beq heq⟩)

theorem id_of_find? {es : List α} {i : String} {e : α} (h : Document.find? es i = some e) :
    Entity.id e = i := eq_of_beq (List.find?_some (p := fun e => Entity.id e == i) h)

variable [Combine α] {strategy : Strategy}

/-- 同じ識別子の実体に、上の実体を突き合わせたもの。 -/
def blend (strategy : Strategy) (x e : α) : α :=
  match strategy with
  | .override => e
  | .merge => Combine.combine x e
  | .append => x

@[simp] theorem mergeCollection_nil (strategy : Strategy) (base : List α) :
    mergeCollection strategy base [] = base := rfl

@[simp] theorem mergeCollection_cons (strategy : Strategy) (base above : List α) (e : α) :
    mergeCollection strategy base (e :: above) =
      mergeCollection strategy (place strategy base e) above := rfl

theorem mergeCollection_concat (strategy : Strategy) (base above rest : List α) :
    mergeCollection strategy base (above ++ rest) =
      mergeCollection strategy (mergeCollection strategy base above) rest := List.foldl_append ..

/-! ## つなぐだけの並び -/

theorem place_append (es : List α) (e : α) : place .append es e = es ++ [e] := by
  induction es with
  | nil => rfl
  | cons x xs ih =>
      rw [place, ih]
      split <;> rfl

theorem mergeCollection_append (base above : List α) :
    mergeCollection .append base above = base ++ above := by
  induction above generalizing base with
  | nil => exact (List.append_nil base).symm
  | cons e es ih =>
      have htail := ih (place .append base e)
      rw [place_append, List.append_assoc] at htail
      exact (congrArg (mergeCollection .append · es) (place_append base e)).trans htail

/-! ## 実体を一つ置く -/

theorem place_cons_of_eq (hs : strategy ≠ .append) {x e : α} (h : Entity.id x = Entity.id e)
    (xs : List α) : place strategy (x :: xs) e = blend strategy x e :: xs := by
  cases strategy with
  | override => exact if_pos h
  | merge => exact if_pos h
  | append => exact absurd rfl hs

theorem place_cons_of_ne {x e : α} (h : Entity.id x ≠ Entity.id e) (xs : List α) :
    place strategy (x :: xs) e = x :: place strategy xs e := if_neg h

theorem place_of_notMem {es : List α} {e : α} (h : Entity.id e ∉ ids es) :
    place strategy es e = es ++ [e] := by
  induction es with
  | nil => rfl
  | cons x xs ih =>
      rw [ids_cons, List.mem_cons, not_or] at h
      rw [place_cons_of_ne (Ne.symm h.1), ih h.2]
      rfl

/-- 識別子がどこでも重ならなければ、どの重ねかたでも、並びをつなぐだけになる。 -/
theorem mergeCollection_of_nodup {base above : List α} (h : (ids (base ++ above)).Nodup) :
    mergeCollection strategy base above = base ++ above := by
  induction above generalizing base with
  | nil => exact (List.append_nil base).symm
  | cons e above ih =>
      rw [List.append_cons] at h ⊢
      have hbase : (ids base ++ [Entity.id e]).Nodup := by
        rw [ids_append] at h
        simpa using h.of_append_left
      have he : Entity.id e ∉ ids base := fun hmem =>
        List.disjoint_of_nodup_append hbase hmem (List.mem_singleton_self _)
      rw [mergeCollection_cons, place_of_notMem he, ih h]

theorem place_split (hs : strategy ≠ .append) {before after : List α} {x e : α}
    (hbefore : Entity.id e ∉ ids before) (hx : Entity.id x = Entity.id e) :
    place strategy (before ++ x :: after) e = before ++ blend strategy x e :: after := by
  induction before with
  | nil => exact place_cons_of_eq hs hx after
  | cons b before ih =>
      rw [ids_cons, List.mem_cons, not_or] at hbefore
      rw [List.cons_append, place_cons_of_ne (Ne.symm hbefore.1), ih hbefore.2]
      rfl

section Lawful

variable [LawfulCombine α]

theorem id_blend {x e : α} (h : Entity.id x = Entity.id e) :
    Entity.id (blend strategy x e) = Entity.id x := by
  cases strategy with
  | override => exact h.symm
  | merge => exact LawfulCombine.id_combine x e
  | append => rfl

theorem blend_assoc (x y z : α) :
    blend strategy (blend strategy x y) z = blend strategy x (blend strategy y z) := by
  cases strategy with
  | override => rfl
  | merge => exact LawfulCombine.combine_assoc x y z
  | append => rfl

theorem ids_place (hs : strategy ≠ .append) (es : List α) (e : α) : ids (place strategy es e) =
    if Entity.id e ∈ ids es then ids es else ids es ++ [Entity.id e] := by
  by_cases h : Entity.id e ∈ ids es
  · obtain ⟨before, x, after, rfl, hx, hbefore⟩ := exists_split h
    rw [if_pos h, place_split hs hbefore hx, ids_append, ids_append, ids_cons, ids_cons, id_blend hx]
  · rw [if_neg h, place_of_notMem h, ids_append]
    rfl

theorem nodup_place (hs : strategy ≠ .append) {es : List α} (h : (ids es).Nodup) (e : α) :
    (ids (place strategy es e)).Nodup := by
  rw [ids_place hs]
  split
  · exact h
  · rename_i he
    exact h.append (List.nodup_singleton _) (by simpa using he)

theorem mem_ids_place (hs : strategy ≠ .append) {es : List α} {e : α} {i : String} :
    i ∈ ids (place strategy es e) ↔ i ∈ ids es ∨ i = Entity.id e := by
  rw [ids_place hs]
  split
  · rename_i he
    exact ⟨Or.inl, fun h => h.elim id fun hi => hi ▸ he⟩
  · rw [List.mem_append, List.mem_singleton]

/-- すでにある識別子の実体を置くことは、別の識別子の実体を置くことと入れ替えてよい。 -/
theorem place_comm (hs : strategy ≠ .append) {es : List α} {e f : α}
    (he : Entity.id e ∈ ids es) (hne : Entity.id e ≠ Entity.id f) :
    place strategy (place strategy es f) e = place strategy (place strategy es e) f := by
  obtain ⟨before, x, after, rfl, hx, hbefore⟩ := exists_split he
  rw [place_split hs hbefore hx]
  clear he
  induction before with
  | nil =>
      have hxf : Entity.id x ≠ Entity.id f := hx ▸ hne
      have hblend : Entity.id (blend strategy x e) ≠ Entity.id f := by rwa [id_blend hx]
      rw [List.nil_append, List.nil_append, place_cons_of_ne hxf, place_cons_of_eq hs hx,
        place_cons_of_ne hblend]
  | cons b before ih =>
      rw [ids_cons, List.mem_cons, not_or] at hbefore
      rw [List.cons_append, List.cons_append]
      by_cases hb : Entity.id b = Entity.id f
      · have hblend : Entity.id (blend strategy b f) ≠ Entity.id e := by
          rw [id_blend hb, hb]
          exact Ne.symm hne
        rw [place_cons_of_eq hs hb, place_cons_of_ne hblend, place_split hs hbefore.2 hx,
          place_cons_of_eq hs hb]
      · rw [place_cons_of_ne hb, place_cons_of_ne (Ne.symm hbefore.1), place_cons_of_ne hb,
          ih hbefore.2]

/-- 同じ識別子の実体を続けて置くことは、突き合わせたものを置くことである。 -/
theorem place_place (hs : strategy ≠ .append) (es : List α) {e f : α}
    (h : Entity.id f = Entity.id e) :
    place strategy (place strategy es f) e = place strategy es (blend strategy f e) := by
  have hblend : Entity.id (blend strategy f e) = Entity.id f := id_blend h
  induction es with
  | nil => exact place_cons_of_eq hs h []
  | cons x xs ih =>
      by_cases hx : Entity.id x = Entity.id f
      · have hxe : Entity.id (blend strategy x f) = Entity.id e := (id_blend hx).trans (hx.trans h)
        rw [place_cons_of_eq hs hx, place_cons_of_eq hs hxe, place_cons_of_eq hs (hx.trans hblend.symm),
          blend_assoc]
      · rw [place_cons_of_ne hx, place_cons_of_ne (h ▸ hx), place_cons_of_ne (hblend.symm ▸ hx), ih]

/-! ## 並びを置く -/

theorem nodup_mergeCollection (hs : strategy ≠ .append) {base : List α} (h : (ids base).Nodup)
    (above : List α) : (ids (mergeCollection strategy base above)).Nodup := by
  induction above generalizing base with
  | nil => exact h
  | cons e above ih => exact ih (nodup_place hs h e)

/-- 識別子の並びは、下の並びに上の並びをつなぎ、初めの一つだけを残したものである。 -/
theorem ids_mergeCollection (hs : strategy ≠ .append) {base : List α} {is : List String}
    (h : ids base = is.eraseDups) (above : List α) :
    ids (mergeCollection strategy base above) = (is ++ ids above).eraseDups := by
  induction above generalizing base is with
  | nil => rw [ids_nil, List.append_nil]; exact h
  | cons e above ih =>
      have hplace : ids (place strategy base e) = (is ++ [Entity.id e]).eraseDups := by
        rw [ids_place hs, h, List.eraseDups_concat]
        simp only [List.mem_eraseDups]
      rw [mergeCollection_cons, ih hplace, List.append_assoc]
      rfl

theorem exists_ids_mergeCollection (hs : strategy ≠ .append) (base above : List α) :
    ∃ added, ids (mergeCollection strategy base above) = ids base ++ added ∧ added.Nodup ∧
      ∀ i ∈ added, i ∉ ids base := by
  induction above generalizing base with
  | nil => exact ⟨[], (List.append_nil _).symm, List.nodup_nil, fun _ h => nomatch h⟩
  | cons e above ih =>
      obtain ⟨added, hids, hnodup, hnew⟩ := ih (place strategy base e)
      rw [mergeCollection_cons, hids]
      rw [ids_place hs] at hnew ⊢
      by_cases he : Entity.id e ∈ ids base
      · rw [if_pos he] at hnew ⊢
        exact ⟨added, rfl, hnodup, hnew⟩
      · rw [if_neg he] at hnew ⊢
        have hfresh : Entity.id e ∉ added := fun hmem =>
          hnew _ hmem (List.mem_append_right _ (List.mem_singleton_self _))
        refine ⟨Entity.id e :: added, List.append_assoc .., List.nodup_cons.mpr ⟨hfresh, hnodup⟩, ?_⟩
        rw [List.forall_mem_cons]
        exact ⟨he, fun i hi hbase => hnew i hi (List.mem_append_left _ hbase)⟩

theorem mem_ids_mergeCollection {base above : List α} {i : String} :
    i ∈ ids (mergeCollection strategy base above) ↔ i ∈ ids base ∨ i ∈ ids above := by
  by_cases hs : strategy = .append
  · subst hs
    rw [mergeCollection_append, ids_append, List.mem_append]
  · induction above generalizing base with
    | nil => rw [mergeCollection_nil, ids_nil, or_iff_left List.not_mem_nil]
    | cons e above ih =>
        rw [mergeCollection_cons, ih, mem_ids_place hs, ids_cons, List.mem_cons, or_assoc]

/-- 並びにない識別子の実体は、並びの前に置いても後に置いてもよい。 -/
theorem place_mergeCollection (hs : strategy ≠ .append) {base above : List α} {e : α}
    (he : Entity.id e ∈ ids base) (hnew : Entity.id e ∉ ids above) :
    place strategy (mergeCollection strategy base above) e =
      mergeCollection strategy (place strategy base e) above := by
  induction above generalizing base with
  | nil => rfl
  | cons f above ih =>
      rw [ids_cons, List.mem_cons, not_or] at hnew
      have hmem : Entity.id e ∈ ids (place strategy base f) := (mem_ids_place hs).mpr (Or.inl he)
      rw [mergeCollection_cons, mergeCollection_cons, ih hmem hnew.2, place_comm hs he hnew.1]

theorem mergeCollection_place (hs : strategy ≠ .append) (base : List α) {middle : List α}
    (hmiddle : (ids middle).Nodup) (e : α) :
    mergeCollection strategy base (place strategy middle e) =
      place strategy (mergeCollection strategy base middle) e := by
  by_cases he : Entity.id e ∈ ids middle
  · obtain ⟨before, x, after, rfl, hx, hbefore⟩ := exists_split he
    have hafter : Entity.id e ∉ ids after := by
      rw [ids_append, ids_cons] at hmiddle
      have hnodup := hmiddle.of_append_right
      rw [List.nodup_cons, hx] at hnodup
      exact hnodup.1
    have hmem : Entity.id e ∈ ids (place strategy (mergeCollection strategy base before) x) :=
      (mem_ids_place hs).mpr (Or.inr hx.symm)
    rw [place_split hs hbefore hx, mergeCollection_concat, mergeCollection_concat,
      mergeCollection_cons, mergeCollection_cons, place_mergeCollection hs hmem hafter,
      place_place hs _ hx]
  · rw [place_of_notMem he, mergeCollection_concat]
    rfl

/-- 間に置く並びの識別子が重ならなければ、重ねる順はまとめ替えてよい。 -/
theorem mergeCollection_assoc (base above : List α) {middle : List α}
    (hmiddle : strategy ≠ .append → (ids middle).Nodup) :
    mergeCollection strategy (mergeCollection strategy base middle) above =
      mergeCollection strategy base (mergeCollection strategy middle above) := by
  by_cases hs : strategy = .append
  · subst hs
    simp only [mergeCollection_append, List.append_assoc]
  · replace hmiddle := hmiddle hs
    induction above generalizing middle with
    | nil => rfl
    | cons e above ih =>
        rw [mergeCollection_cons, mergeCollection_cons, ← ih (nodup_place hs hmiddle e),
          mergeCollection_place hs base hmiddle e]

/-! ## 識別子で引く -/

/-- 下と上で引いたものを突き合わせたもの。 -/
def blend? (strategy : Strategy) : Option α → Option α → Option α
  | some x, some e => some (blend strategy x e)
  | some x, none => some x
  | none, e => e

theorem find?_place (hs : strategy ≠ .append) (es : List α) (e : α) (i : String) :
    Document.find? (place strategy es e) i =
      if Entity.id e = i then blend? strategy (Document.find? es i) (some e)
      else Document.find? es i := by
  induction es with
  | nil => exact find?_cons e [] i
  | cons x xs ih =>
      by_cases hx : Entity.id x = Entity.id e
      · have hblend : Entity.id (blend strategy x e) = Entity.id x := id_blend hx
        rw [place_cons_of_eq hs hx, find?_cons, find?_cons, hblend, hx]
        split <;> rfl
      · rw [place_cons_of_ne hx, find?_cons, find?_cons, ih]
        by_cases hi : Entity.id x = i
        · have he : Entity.id e ≠ i := hi ▸ Ne.symm hx
          rw [if_pos hi, if_neg he, if_pos hi]
        · rw [if_neg hi, if_neg hi]

theorem find?_mergeCollection (hs : strategy ≠ .append) (base : List α) {above : List α}
    (h : (ids above).Nodup) (i : String) :
    Document.find? (mergeCollection strategy base above) i =
      blend? strategy (Document.find? base i) (Document.find? above i) := by
  induction above generalizing base with
  | nil =>
      have hnone : Document.find? ([] : List α) i = none := rfl
      rw [mergeCollection_nil, hnone]
      cases Document.find? base i <;> rfl
  | cons e above ih =>
      rw [ids_cons, List.nodup_cons] at h
      rw [mergeCollection_cons, ih _ h.2, find?_place hs, find?_cons]
      by_cases hi : Entity.id e = i
      · have hnone : Document.find? above i = none := find?_of_notMem (hi ▸ h.1)
        rw [if_pos hi, if_pos hi, hnone]
        cases Document.find? base i <;> rfl
      · rw [if_neg hi, if_neg hi]

end Lawful

end SpecLineage
