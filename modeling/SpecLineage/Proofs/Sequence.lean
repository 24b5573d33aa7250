import Mathlib.Data.List.Nodup

/-!
# 名で引く並び、順に読む並び

名のついたものの並びを名で引く。引いたものは、ほかの名のものを除いても、ほかの名のものが加わっても変わらない。書いた
ものの並びは、一つずつ読み戻せれば、順に読み戻せる。
-/

namespace List

section Pairs

variable {α β : Type} [BEq α] [LawfulBEq α] {k m : α}

theorem lookup_of_notMem {es : List (α × β)} (h : k ∉ es.map Prod.fst) : es.lookup k = none :=
  lookup_eq_none_iff.mpr fun e he => bne_iff_ne.mpr fun heq => h (mem_map.mpr ⟨e, he, heq.symm⟩)

theorem lookup_filter_of_ne (h : m ≠ k) (es : List (α × β)) :
    (es.filter (·.1 != k)).lookup m = es.lookup m := by
  induction es with
  | nil => rfl
  | cons e es ih =>
      obtain ⟨n, x⟩ := e
      by_cases hn : n = k
      · subst hn
        simpa [lookup_cons, beq_false_of_ne h] using ih
      · simp [lookup_cons, hn, ih]

end Pairs

section Named

variable {α κ : Type} [BEq κ] [LawfulBEq κ] {f : α → κ} {a : α} {xs ys : List α}

theorem find?_append_cons_of_notMem (h : f a ∉ xs.map f) :
    (xs ++ a :: ys).find? (fun x => f x == f a) = some a := by
  have hnone : xs.find? (fun x => f x == f a) = none :=
    find?_eq_none.mpr fun x hx hkey => h (mem_map.mpr ⟨x, hx, beq_iff_eq.mp hkey⟩)
  rw [find?_append, hnone, Option.none_or, find?_cons, beq_self_eq_true]

theorem map_ite_key_of_notMem {k : κ} (h : k ∉ xs.map f) (g : α → α) :
    xs.map (fun x => if f x == k then g x else x) = xs := by
  refine (map_congr_left fun x hx => if_neg fun hkey => h ?_).trans (map_id xs)
  exact mem_map.mpr ⟨x, hx, beq_iff_eq.mp hkey⟩

/-- 名の重ならない並びでは、一つの名のものだけが書き換わる。 -/
theorem map_ite_key_append_cons (hxs : f a ∉ xs.map f) (hys : f a ∉ ys.map f) (g : α → α) :
    (xs ++ a :: ys).map (fun x => if f x == f a then g x else x) = xs ++ g a :: ys := by
  rw [map_append, map_cons, map_ite_key_of_notMem hxs, map_ite_key_of_notMem hys,
    if_pos (beq_self_eq_true (f a))]

omit [BEq κ] [LawfulBEq κ] in
theorem notMem_map_of_nodup_append_cons (h : ((xs ++ a :: ys).map f).Nodup) :
    f a ∉ xs.map f ∧ f a ∉ ys.map f := by
  rw [map_append, map_cons, nodup_middle, nodup_cons, mem_append, not_or] at h
  exact h.1

end Named

theorem mapM_map_eq_pure {m : Type → Type} [Monad m] [LawfulMonad m] {α β : Type} {f : β → m α}
    {g : α → β} {as : List α} (h : ∀ a ∈ as, f (g a) = pure a) :
    (as.map g).mapM f = pure as := by
  induction as with
  | nil => rfl
  | cons a as ih =>
      obtain ⟨ha, has⟩ := forall_mem_cons.mp h
      rw [map_cons, mapM_cons, ha, ih has, pure_bind, pure_bind]

end List
