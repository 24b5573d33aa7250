import Mathlib.Data.List.Induction
import Mathlib.Data.List.Infix
import Mathlib.Data.List.Nodup
import Mathlib.Data.Set.Function

/-!
# 初めの一つだけを残した並び

`List.eraseDups` は、同じものの初めの一つだけを残す。並びの末尾に加えたときと、重複のないときの形を示す。つないだ
並びでは、つなぐ前に一つだけを残しておいても変わらない。どれが初めの一つかは、要素をそれより前の並びとともに挙げれば
わかる。
-/

namespace List

variable {α : Type} [BEq α] [LawfulBEq α]

theorem eraseDups_concat (xs : List α) (x : α) :
    (xs ++ [x]).eraseDups = if x ∈ xs then xs.eraseDups else xs.eraseDups ++ [x] := by
  rw [eraseDups_append]
  by_cases h : x ∈ xs
  · simp [removeAll, h]
  · simp [removeAll, h, eraseDups_cons]

theorem eraseDups_eq_self {xs : List α} (h : xs.Nodup) : xs.eraseDups = xs := by
  induction xs using List.reverseRecOn with
  | nil => rfl
  | append_singleton xs x ih =>
      have hx : x ∉ xs := fun hx => disjoint_of_nodup_append h hx (mem_singleton_self x)
      rw [eraseDups_concat, if_neg hx, ih h.of_append_left]

theorem nodup_eraseDups (xs : List α) : xs.eraseDups.Nodup := by
  induction xs using List.reverseRecOn with
  | nil => exact nodup_nil
  | append_singleton xs x ih =>
      rw [eraseDups_concat]
      split
      · exact ih
      · rename_i hx
        exact ih.append (nodup_singleton x) (by simpa using hx)

theorem eraseDups_eraseDups_append (xs ys : List α) :
    (xs.eraseDups ++ ys).eraseDups = (xs ++ ys).eraseDups := by
  induction ys using List.reverseRecOn with
  | nil => rw [append_nil, append_nil, eraseDups_eq_self (nodup_eraseDups xs)]
  | append_singleton ys y ih =>
      rw [← append_assoc, ← append_assoc, eraseDups_concat, eraseDups_concat, ih]
      simp only [mem_append, mem_eraseDups]

theorem eraseDups_append_eraseDups (xs ys : List α) :
    (xs ++ ys.eraseDups).eraseDups = (xs ++ ys).eraseDups := by
  induction ys using List.reverseRecOn with
  | nil => rfl
  | append_singleton ys y ih =>
      rw [← append_assoc, eraseDups_concat ys, eraseDups_concat (xs ++ ys)]
      by_cases hy : y ∈ ys
      · rw [if_pos hy, if_pos (mem_append_right xs hy), ih]
      · rw [if_neg hy, ← append_assoc, eraseDups_concat, ih]
        simp only [mem_append, mem_eraseDups]

theorem eraseDups_append_congr {xs xs' ys ys' : List α} (hx : xs.eraseDups = xs'.eraseDups)
    (hy : ys.eraseDups = ys'.eraseDups) : (xs ++ ys).eraseDups = (xs' ++ ys').eraseDups := by
  rw [← eraseDups_eraseDups_append, hx, eraseDups_eraseDups_append, ← eraseDups_append_eraseDups, hy,
    eraseDups_append_eraseDups]

omit [BEq α] [LawfulBEq α] in
theorem mem_map_iff_of_injOn {β : Type} {f : α → β} {s : Set α} (hf : Set.InjOn f s) {xs : List α}
    (hxs : ∀ x ∈ xs, x ∈ s) {x : α} (hx : x ∈ s) : f x ∈ xs.map f ↔ x ∈ xs := by
  refine ⟨fun h => ?_, mem_map_of_mem⟩
  obtain ⟨y, hy, hfy⟩ := mem_map.mp h
  rwa [← hf (hxs y hy) hx hfy]

/-- 並びの上で単射な写しは、初めの一つだけを残す操作と順を入れ替えられる。 -/
theorem eraseDups_map_of_injOn {β : Type} [BEq β] [LawfulBEq β] {f : α → β} {s : Set α}
    (hf : Set.InjOn f s) {xs : List α} (hxs : ∀ x ∈ xs, x ∈ s) :
    (xs.map f).eraseDups = xs.eraseDups.map f := by
  induction xs using List.reverseRecOn with
  | nil => rfl
  | append_singleton xs x ih =>
      have hinit : ∀ y ∈ xs, y ∈ s := fun y hy => hxs y (mem_append_left _ hy)
      have hlast : x ∈ s := hxs x (mem_append_right _ (mem_singleton_self x))
      rw [map_append, map_singleton, eraseDups_concat, eraseDups_concat, ih hinit]
      simp only [mem_map_iff_of_injOn hf hinit hlast]
      split
      · rfl
      · rw [map_append, map_singleton]

/-! ## それより前の並び -/

section Earlier

variable {β γ : Type}

/-- 並びの要素を、それより前の並びとともに順に挙げたもの。 -/
def withEarlier (xs : List β) : List (List β × β) := xs.inits.zip xs

example : withEarlier [1, 2, 3] = [([], 1), ([1], 2), ([1, 2], 3)] := rfl

theorem withEarlier_cons (x : β) (xs : List β) :
    withEarlier (x :: xs) = ([], x) :: (withEarlier xs).map fun p => (x :: p.1, p.2) := by
  rw [withEarlier, inits_cons, zip_cons_cons, zip_map_left]
  rfl

theorem withEarlier_append (xs ys : List β) :
    withEarlier (xs ++ ys) = withEarlier xs ++ (withEarlier ys).map fun p => (xs ++ p.1, p.2) := by
  induction xs with
  | nil => exact (map_id _).symm
  | cons x xs ih =>
      rw [cons_append, withEarlier_cons, withEarlier_cons, ih, map_append, map_map]
      rfl

theorem withEarlier_concat (xs : List β) (x : β) :
    withEarlier (xs ++ [x]) = withEarlier xs ++ [(xs, x)] := by
  rw [withEarlier_append]
  simp [withEarlier]

theorem mem_of_mem_withEarlier {xs : List β} {p : List β × β} (h : p ∈ withEarlier xs) : p.2 ∈ xs :=
  (of_mem_zip h).2

theorem map_withEarlier (f : β → γ) (xs : List β) :
    (withEarlier xs).map (fun p => f p.2) = xs.map f := by
  have hsnd : (withEarlier xs).map Prod.snd = xs := map_snd_zip (by simp)
  have hmap := congrArg (map f) hsnd
  rwa [map_map] at hmap

/-- 前にあるどの要素とも `R` の関係にあることは、並びの二つずつがその関係にあることである。 -/
theorem forall_withEarlier_iff {R : β → β → Prop} {xs : List β} :
    (∀ p ∈ withEarlier xs, ∀ y ∈ p.1, R y p.2) ↔ xs.Pairwise R := by
  induction xs using List.reverseRecOn with
  | nil => simp [withEarlier]
  | append_singleton xs x ih =>
      rw [withEarlier_concat, forall_mem_append, ih, pairwise_append]
      simp

end Earlier

/-- 選んだものの初めの一つは、それより前に同じものがないものである。 -/
theorem eraseDups_filter (xs : List α) (q : α → Bool) : (xs.filter q).eraseDups =
    xs.withEarlier.filterMap fun p => if q p.2 ∧ p.2 ∉ p.1 then some p.2 else none := by
  induction xs using List.reverseRecOn with
  | nil => rfl
  | append_singleton xs x ih =>
      rw [filter_append, withEarlier_concat, filterMap_append, ← ih]
      cases hq : q x with
      | false => simp [hq]
      | true =>
          have hsingle : [x].filter q = [x] := filter_cons_of_pos hq
          rw [hsingle, eraseDups_concat]
          by_cases hx : x ∈ xs <;> simp [hx, hq]

end List
