import Mathlib.Logic.Function.Basic
import SpecLineage.Lineage.Store
import SpecLineage.Proofs.Lineage.Fetch

/-!
# 解決は頼んだ場所の答えだけで決まる

どの場所に読み込みを頼むかは、それまでの答えから決まる。頼んだ場所で同じ答えを返す二つの読み込みは、歩調をそろえて
同じ場所を頼み、途中の控えをいつも等しく保つから、結果も蓄えも等しい。
-/

namespace SpecLineage

/-- 読み込みの答えのうち、解決が用いるもの。読み込めない理由は、その文だけを用いる。 -/
def Loader.answer (load : Loader) (l : Location) : Except String Document :=
  (load l).mapError LoadFault.message

/-- 読み込みを換えた解決。 -/
def Resolver.withLoad (r : Resolver) (load : Loader) : Resolver := { r with load }

/-- `ls` のどの場所でも、二つの読み込みの答えは同じである。 -/
def Loader.AgreeOn (other load : Loader) (ls : List Location) : Prop :=
  ∀ l ∈ ls, other.answer l = load.answer l

theorem Loader.AgreeOn.mono {other load : Loader} {ls ms : List Location}
    (h : other.AgreeOn load ms) (hsub : ls ⊆ ms) : other.AgreeOn load ls :=
  fun l hl => h l (hsub hl)

/-! ## 頼んだ場所は減らない -/

namespace Walk

@[simp] theorem requests_record (w : Walk) (d : Diagnostic) :
    (w.record d).requests = w.requests := rfl

@[simp] theorem requests_enter (w : Walk) (l : Location) : (w.enter l).requests = w.requests := rfl

@[simp] theorem requests_leave (w : Walk) : w.leave.requests = w.requests := rfl

theorem requests_fetch (load : Loader) (w : Walk) (l : Location) :
    w.requests ⊆ (w.fetch load l).2.requests := by
  have hfetched := w.fetched load l
  generalize w.fetch load l = fetched at hfetched
  obtain ⟨answer, fetched⟩ := fetched
  cases hfetched with
  | remembered _ => exact List.Subset.refl _
  | stocked _ _ _ => exact List.Subset.refl _
  | loaded _ _ _ => exact List.subset_append_left _ _
  | failed _ _ _ => exact List.subset_append_left _ _

end Walk

namespace Resolver

variable {r : Resolver} {other : Loader}

theorem requests_follow {visit : Document → Location → Walk → Document × Walk}
    (hvisit : ∀ d l w, w.requests ⊆ (visit d l w).2.requests) (base : Location)
    (state : Document × Walk) (reference : String) :
    state.2.requests ⊆ (r.follow visit base state reference).2.requests := by
  obtain ⟨result, w⟩ := state
  simp only [follow]
  split
  · exact List.Subset.refl _
  · rename_i l _
    split
    · exact List.Subset.refl _
    · -- 警告を控えて場所に入っても、頼んだ場所は変わらない。
      generalize hentered : (if w.session.inProgress l = true then
        w.record (circularAllowed (w.session.cycle l)) else w).enter l = entered
      have hsame : entered.requests = w.requests := by
        rw [← hentered, Walk.requests_enter]
        split <;> rfl
      have hfetch := entered.requests_fetch r.load l
      rw [hsame] at hfetch
      split
      · rename_i heq
        rw [heq] at hfetch
        exact hfetch
      · rename_i parent fetched heq
        rw [heq] at hfetch
        exact List.Subset.trans hfetch (hvisit parent l fetched)

theorem requests_foldl {visit : Document → Location → Walk → Document × Walk}
    (hvisit : ∀ d l w, w.requests ⊆ (visit d l w).2.requests) (base : Location)
    (references : List String) (state : Document × Walk) :
    state.2.requests ⊆ (references.foldl (r.follow visit base) state).2.requests := by
  induction references generalizing state with
  | nil => exact List.Subset.refl _
  | cons reference references ih =>
      exact List.Subset.trans (requests_follow hvisit base state reference) (ih _)

theorem requests_visit (left : Nat) : ∀ (d : Document) (base : Location) (w : Walk),
    w.requests ⊆ (r.visit left d base w).2.requests := by
  induction left with
  | zero => exact fun d base w => List.Subset.refl _
  | succ left ih => exact fun d base w => requests_foldl ih base d.parents (d, w)

/-! ## 歩調をそろえて進む -/

/-- 用いるところの等しい答えは、同じ文書か、同じ文の誤りである。 -/
theorem cases_of_mapError {a b : Except LoadFault Document}
    (h : a.mapError LoadFault.message = b.mapError LoadFault.message) :
    (∃ d, a = .ok d ∧ b = .ok d) ∨
      ∃ f g, a = .error f ∧ b = .error g ∧ f.message = g.message := by
  cases a with
  | ok d =>
      cases b with
      | ok e => exact .inl ⟨d, rfl, congrArg Except.ok (Except.ok.inj h).symm⟩
      | error _ => cases h
  | error f =>
      cases b with
      | ok _ => cases h
      | error g => exact .inr ⟨f, g, rfl, rfl, Except.error.inj h⟩

/-- 頼んだ場所は控えに残るから、二つの読み込みはそこで同じ答えを返す。 -/
theorem request_withLoad {load : Loader} {w : Walk} {l : Location}
    (h : other.AgreeOn load (w.request load l).2.requests) :
    (w.request other l).2 = (w.request load l).2 ∧
      (w.request other l).1.mapError LoadFault.message =
        (w.request load l).1.mapError LoadFault.message := by
  have hl : l ∈ (w.request load l).2.requests := by
    cases hload : load l <;> simp [Walk.request, hload, Walk.remember]
  obtain ⟨d, hother, hload⟩ | ⟨f, g, hother, hload, hmessage⟩ := cases_of_mapError (h l hl)
  · simp only [Walk.request, hother, hload, and_self]
  · simp only [Walk.request, hother, hload, Except.mapError, hmessage, and_self]

/-- 取り出しの後の控えで頼んである場所の答えが同じなら、取り出しの答えも、後の控えも同じである。 -/
theorem fetch_withLoad {load : Loader} {w : Walk} {l : Location}
    (h : other.AgreeOn load (w.fetch load l).2.requests) :
    (w.fetch other l).2 = (w.fetch load l).2 ∧
      (w.fetch other l).1.mapError LoadFault.message =
        (w.fetch load l).1.mapError LoadFault.message := by
  cases hs : w.session.cached l with
  | some d => simp only [Walk.fetch, hs, and_self]
  | none =>
      cases hc : w.cache.map (Cache.get · l) with
      | none =>
          simp only [Walk.fetch, hs, hc] at h ⊢
          exact request_withLoad h
      | some found =>
          obtain ⟨stocked, cache⟩ := found
          cases stocked with
          | some d => simp only [Walk.fetch, hs, hc, and_self]
          | none =>
              simp only [Walk.fetch, hs, hc] at h ⊢
              exact request_withLoad h

theorem follow_withLoad {visit visit' : Document → Location → Walk → Document × Walk}
    (hvisit : ∀ d l w, w.requests ⊆ (visit d l w).2.requests)
    (ih : ∀ d l w, other.AgreeOn r.load (visit d l w).2.requests → visit' d l w = visit d l w)
    {base : Location} {state : Document × Walk} {reference : String}
    (h : other.AgreeOn r.load (r.follow visit base state reference).2.requests) :
    (r.withLoad other).follow visit' base state reference = r.follow visit base state reference := by
  obtain ⟨result, w⟩ := state
  simp only [follow, withLoad] at h ⊢
  cases hr : r.addressing.resolve reference base with
  | error fault => rfl
  | ok l =>
      simp only [hr] at h ⊢
      by_cases hcut : (w.session.inProgress l && !r.options.allowCircular) = true
      · simp only [hcut, ↓reduceIte]
      · simp only [hcut, Bool.false_eq_true, ↓reduceIte] at h ⊢
        generalize (if w.session.inProgress l = true then
          w.record (circularAllowed (w.session.cycle l)) else w).enter l = entered at h ⊢
        cases hfetch : entered.fetch r.load l with
        | mk answer fetched =>
            -- 取り出した後に頼む場所が増えても、取り出しまでに頼んだ場所はその中にある。
            have hagree : other.AgreeOn r.load (entered.fetch r.load l).2.requests := by
              rw [hfetch]
              refine h.mono ?_
              cases answer with
              | error fault => simp only [hfetch]; exact List.Subset.refl _
              | ok parent => simp only [hfetch]; exact hvisit parent l fetched
            obtain ⟨hwalk, hanswer⟩ := fetch_withLoad hagree
            cases hfetch' : entered.fetch other l with
            | mk answer' fetched' =>
                rw [hfetch, hfetch'] at hwalk hanswer
                subst hwalk
                obtain ⟨parent, rfl, rfl⟩ | ⟨fault', fault, rfl, rfl, hmessage⟩ :=
                  cases_of_mapError hanswer
                · simp only [hfetch] at h
                  simp only [ih _ _ _ h]
                · simp only [unloaded, hmessage]

theorem foldl_withLoad {visit visit' : Document → Location → Walk → Document × Walk}
    (hvisit : ∀ d l w, w.requests ⊆ (visit d l w).2.requests)
    (ih : ∀ d l w, other.AgreeOn r.load (visit d l w).2.requests → visit' d l w = visit d l w)
    {base : Location} (references : List String) {state : Document × Walk}
    (h : other.AgreeOn r.load (references.foldl (r.follow visit base) state).2.requests) :
    references.foldl ((r.withLoad other).follow visit' base) state =
      references.foldl (r.follow visit base) state := by
  induction references generalizing state with
  | nil => rfl
  | cons reference references ihr =>
      have hfirst := follow_withLoad hvisit ih (h.mono (requests_foldl hvisit base references _))
      rw [List.foldl_cons, List.foldl_cons, hfirst]
      exact ihr h

theorem visit_withLoad (left : Nat) : ∀ (d : Document) (base : Location) (w : Walk),
    other.AgreeOn r.load (r.visit left d base w).2.requests →
      (r.withLoad other).visit left d base w = r.visit left d base w := by
  induction left with
  | zero => exact fun d base w _ => rfl
  | succ left ih => exact fun d base w h => foldl_withLoad (requests_visit left) ih d.parents h

theorem resolve_withLoad {d : Document} {base : String} {cache : Option Cache}
    (h : other.AgreeOn r.load (r.resolve d base cache).requests) :
    (r.withLoad other).resolve d base cache = r.resolve d base cache := by
  cases hd : d.hasParents with
  | false => simp only [resolve, hd, Bool.false_eq_true, ↓reduceIte]
  | true =>
      simp only [resolve, hd, ↓reduceIte] at h ⊢
      have hvisit := visit_withLoad _ _ _ _ h
      simp only [withLoad] at hvisit ⊢
      simp only [hvisit]

end Resolver

/-- 解決は、頼んだ場所の答えだけで決まる。頼んだ場所で同じ文書か同じ文の誤りを答える読み込みは、同じ場所を同じ順に
頼み、同じ結果と同じ蓄えを与える。だから、頼まなかった場所の文書を加えても換えても除いても、解決は変わらない。 -/
theorem resolve_of_agreeOn (r : Resolver) (d : Document) (base : String) (cache : Option Cache)
    (other : Loader) (hagree : other.AgreeOn r.load (r.resolve d base cache).requests) :
    (r.withLoad other).resolve d base cache = r.resolve d base cache ∧
      ∀ l, l ∉ (r.resolve d base cache).requests → ∀ answer : Except LoadFault Document,
        (r.withLoad (Function.update r.load l answer)).resolve d base cache =
          r.resolve d base cache := by
  refine ⟨Resolver.resolve_withLoad hagree, fun l hl answer => Resolver.resolve_withLoad ?_⟩
  intro m hm
  have hne : m ≠ l := fun h => hl (h ▸ hm)
  rw [Loader.answer, Function.update_of_ne hne, Loader.answer]

/-- 蓄えにある `c` と、頼まない `e` の文書は違っていてよく、読み込めない `x` の理由は文だけが等しい。 -/
theorem resolve_of_agreeOn_frayed :
    let root : Document := { parents := ["b", "x", "b", "x"] }
    let cache : Option Cache := some { shelf := ⟨[("c", { imports := ["i"] })]⟩ }
    let store : Store := {
      documents := ⟨[("b", { parents := ["c"] }), ("e", {})]⟩
      failing := [("x", .unreadable "x: y" "z")] }
    let other : Store := {
      documents := ⟨[("b", { parents := ["c"] }), ("c", { parents := ["e"] })]⟩
      failing := [("x", .unreadable "x" "y: z")] }
    let r : Resolver := { load := store.load, addressing := ⟨id, fun reference _ => .ok reference⟩ }
    (r.resolve root "a" cache).requests = ["b", "x", "x"] ∧
      other.load.AgreeOn r.load ["b", "x", "x"] ∧
      (r.withLoad other.load).resolve root "a" cache = r.resolve root "a" cache := by
  intro root cache store other r
  have hrequests : (r.resolve root "a" cache).requests = ["b", "x", "x"] := by decide +kernel
  have hagree : other.load.AgreeOn r.load ["b", "x", "x"] := by
    simp only [Loader.AgreeOn, List.forall_mem_cons, List.not_mem_nil, false_implies, implies_true,
      and_true, and_self]
    exact ⟨by rfl, by rfl⟩
  exact ⟨hrequests, hagree, (resolve_of_agreeOn r root "a" cache other.load (hrequests ▸ hagree)).1⟩

end SpecLineage
