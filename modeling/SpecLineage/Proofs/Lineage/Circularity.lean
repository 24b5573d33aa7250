import Mathlib.Data.List.Chain
import SpecLineage.Lineage.Store
import SpecLineage.Proofs.Lineage.Findings
import SpecLineage.Proofs.Lineage.Simulation

/-!
# 循環の検出

循環を断つ設定では、循環の誤りは系譜の図の輪を並べ、深さが越えないかぎり、根から届く輪があればかならず誤りが
残る。たどっている場所の列がいつも根からの重複のない道であることと、断たれずにたどる道の長さに限りがあることから
導く。
-/

namespace SpecLineage

namespace Resolver

variable (r : Resolver) (root : Visit)

/-! ## 系譜の図 -/

/-- 場所にある文書。根の場所には根の文書がある。 -/
def source (l : Location) : Option Document :=
  if l = root.location then some root.document else (r.load l).toOption

/-- 場所 `l` の文書が、文書のある場所 `m` を親とする。 -/
def Extends (l m : Location) : Prop :=
  (∃ d, r.source root l = some d ∧ ∃ reference ∈ d.parents, r.addressing.resolve reference l = .ok m) ∧
    (r.source root m).isSome

def Reaches (l : Location) : Prop := Relation.ReflTransGen (r.Extends root) root.location l

/-- 根から届く場所に始まり、重複なく辺をたどって始まりに戻る道。 -/
def Circuit (path : List Location) : Prop :=
  ∃ l inner, path = l :: inner ++ [l] ∧ (l :: inner).Nodup ∧ path.IsChain (r.Extends root) ∧
    r.Reaches root l

/-- たどっている文書までの道が、根から届く重複のない道である。 -/
structure Grounded (v : Visit) : Prop where
  source : r.source root v.location = some v.document
  root_mem : root.location ∈ v.chain
  nodup : v.chain.Nodup
  isChain : v.chain.IsChain (r.Extends root)
  isSome_source : ∀ l ∈ v.chain, (r.source root l).isSome
  reaches : ∀ l ∈ v.chain, r.Reaches root l

/-- 循環を許す設定では、根の場所から根の文書を読み込める。 -/
def LoadsRoot : Prop := r.options.allowCircular = true → r.load root.location = .ok root.document

/-- たどっている文書が図の文書であり、根からの道の上にある。 -/
structure Sourced (v : Visit) : Prop where
  source : r.source root v.location = some v.document
  root_mem : root.location ∈ v.chain

variable {r root} {v : Visit}

theorem loadsRoot_of_cut (hcut : r.options.allowCircular = false) : r.LoadsRoot root := by
  intro hallow
  rw [hcut] at hallow
  cases hallow

theorem location_mem_chain (v : Visit) : v.location ∈ v.chain := by simp [Visit.chain]

theorem sourced_root : r.Sourced root root where
  source := if_pos rfl
  root_mem := location_mem_chain root

/-! ## 辺をたどる -/

/-- 断たない参照の先では、図の文書は読み込んだ文書である。 -/
theorem Sourced.source_eq (h : r.Sourced root v) (hself : r.LoadsRoot root) {l : Location}
    (hopen : ¬(l ∈ v.chain ∧ r.options.allowCircular = false)) :
    r.source root l = (r.load l).toOption := by
  by_cases hl : l = root.location
  · subst hl
    have hallow : r.options.allowCircular = true := by simpa [h.root_mem] using hopen
    simp [Resolver.source, hself hallow, Except.toOption]
  · exact if_neg hl

theorem Sourced.fate_of_edge (h : r.Sourced root v) (hself : r.LoadsRoot root) {reference : String}
    {l : Location} (hr : r.addressing.resolve reference v.location = .ok l)
    (hl : (r.source root l).isSome) :
    (r.fate v reference = .rejected l ∧ l ∈ v.chain) ∨ ∃ x, r.fate v reference = .folded l x := by
  cases hfate : r.fate v reference with
  | unresolved fault =>
      have hspec := hfate ▸ r.fate_spec v reference
      rw [hr] at hspec
      cases hspec
  | rejected m =>
      obtain ⟨hm, hchain, -⟩ := hfate ▸ r.fate_spec v reference
      rw [hr] at hm
      cases hm
      exact Or.inl ⟨rfl, hchain⟩
  | unloaded m fault =>
      obtain ⟨hm, hopen, hload⟩ := hfate ▸ r.fate_spec v reference
      rw [hr] at hm
      cases hm
      rw [h.source_eq hself hopen, hload] at hl
      cases hl
  | folded m x =>
      obtain ⟨hm, -, -⟩ := hfate ▸ r.fate_spec v reference
      rw [hr] at hm
      cases hm
      exact Or.inr ⟨x, rfl⟩

theorem Sourced.parent (h : r.Sourced root v) (hself : r.LoadsRoot root) {reference : String}
    {parent : Visit} (hnext : (r.fate v reference).next? v = some parent) : r.Sourced root parent := by
  have hchain := Fate.chain_of_next? hnext
  cases hfate : r.fate v reference with
  | folded l x =>
      obtain ⟨-, hopen, hload⟩ := hfate ▸ r.fate_spec v reference
      rw [hfate] at hnext
      cases hnext
      refine ⟨?_, ?_⟩
      · exact (h.source_eq hself hopen).trans (congrArg Except.toOption hload)
      · rw [hchain]
        exact List.mem_append_left _ h.root_mem
  | _ =>
      rw [hfate] at hnext
      cases hnext

theorem grounded_root (habove : root.above = []) : r.Grounded root root where
  source := if_pos rfl
  root_mem := by simp [Visit.chain]
  nodup := by simp [Visit.chain, habove]
  isChain := by simp [Visit.chain, habove]
  isSome_source l hl := by
    have hl : l = root.location := by simpa [Visit.chain, habove] using hl
    simp [Resolver.source, hl]
  reaches l hl := by
    have hl : l = root.location := by simpa [Visit.chain, habove] using hl
    subst hl
    exact .refl

theorem Grounded.sourced (h : r.Grounded root v) : r.Sourced root v := ⟨h.source, h.root_mem⟩

theorem Grounded.extends (h : r.Grounded root v) {reference : String} {l : Location}
    (href : reference ∈ v.document.parents)
    (hr : r.addressing.resolve reference v.location = .ok l) (hl : (r.source root l).isSome) :
    r.Extends root v.location l := ⟨⟨v.document, h.source, reference, href, hr⟩, hl⟩

theorem Grounded.reaches_extends (h : r.Grounded root v) {l : Location}
    (hl : r.Extends root v.location l) : r.Reaches root l :=
  (h.reaches v.location (location_mem_chain v)).tail hl

theorem isChain_concat {α : Type} {R : α → α → Prop} {above : List α} {l m : α}
    (h : (above ++ [l]).IsChain R) (hl : R l m) : (above ++ [l] ++ [m]).IsChain R := by
  refine h.append (.singleton m) ?_
  intro x hx y hy
  simp only [List.getLast?_append, List.getLast?_singleton, Option.some_or, Option.mem_def,
    Option.some.injEq] at hx
  simp only [List.head?_cons, Option.mem_def, Option.some.injEq] at hy
  subst hx hy
  exact hl

theorem Grounded.parent (h : r.Grounded root v) (hcut : r.options.allowCircular = false)
    {reference : String} {parent : Visit} (href : reference ∈ v.document.parents)
    (hnext : (r.fate v reference).next? v = some parent) : r.Grounded root parent := by
  have hsourced := h.sourced.parent (loadsRoot_of_cut hcut) hnext
  have hchain := Fate.chain_of_next? hnext
  cases hfate : r.fate v reference with
  | folded l x =>
      obtain ⟨hr, hopen, -⟩ := hfate ▸ r.fate_spec v reference
      rw [hfate] at hnext
      cases hnext
      -- 循環を断つ設定では、重ねた場所はまだ道にない。
      have hl : l ∉ v.chain := fun hl => hopen ⟨hl, hcut⟩
      have hsome : (r.source root l).isSome := congrArg Option.isSome hsourced.source
      have hedge : r.Extends root v.location l := h.extends href hr hsome
      refine ⟨hsourced.source, hsourced.root_mem, ?_, ?_, ?_, ?_⟩
      · exact h.nodup.append (List.nodup_singleton l) (by simpa using hl)
      · exact isChain_concat h.isChain hedge
      · rw [hchain, List.forall_mem_append, List.forall_mem_singleton]
        exact ⟨h.isSome_source, hsome⟩
      · rw [hchain, List.forall_mem_append, List.forall_mem_singleton]
        exact ⟨h.reaches, h.reaches_extends hedge⟩
  | _ =>
      rw [hfate] at hnext
      cases hnext

/-! ## 見つけた輪は図の輪である -/

theorem dropWhile_ne_append {α : Type} [DecidableEq α] {xs : List α} {x : α} (h : x ∈ xs) :
    ∃ before after, xs = before ++ x :: after ∧ xs.dropWhile (· != x) = x :: after := by
  induction xs with
  | nil => cases h
  | cons y ys ih =>
      by_cases hy : y = x
      · subst hy
        exact ⟨[], ys, rfl, by simp⟩
      · have hx : x ∈ ys := (List.mem_cons.mp h).resolve_left (Ne.symm hy)
        obtain ⟨before, after, hys, hdrop⟩ := ih hx
        refine ⟨y :: before, after, by rw [hys]; rfl, ?_⟩
        rw [List.dropWhile_cons_of_pos (by simpa using hy), hdrop]

theorem Grounded.circuit (h : r.Grounded root v) {reference : String} {l : Location}
    (href : reference ∈ v.document.parents)
    (hr : r.addressing.resolve reference v.location = .ok l) (hl : l ∈ v.chain) :
    r.Circuit root (v.cycle l) := by
  obtain ⟨before, after, hchain, hdrop⟩ := dropWhile_ne_append hl
  have hedge : r.Extends root v.location l := h.extends href hr (h.isSome_source l hl)
  have hpath : (v.chain ++ [l]).IsChain (r.Extends root) := isChain_concat h.isChain hedge
  refine ⟨l, after, by rw [Visit.cycle, hdrop], ?_, ?_, h.reaches l hl⟩
  · have hnodup := h.nodup
    rw [hchain] at hnodup
    exact hnodup.of_append_right
  · rw [hchain, List.append_assoc] at hpath
    rw [Visit.cycle, hdrop]
    exact hpath.right_of_append

/-! ## 輪があれば見つける -/

theorem exists_long_chain {α : Type} {R : α → α → Prop} {a l : α}
    (ha : Relation.ReflTransGen R a l) (hl : Relation.TransGen R l l) (n : Nat) :
    ∃ path : List α, path.length = n ∧ (a :: path).IsChain R := by
  induction n generalizing a with
  | zero => exact ⟨[], rfl, .singleton a⟩
  | succ n ih =>
      have hnext : ∃ b, R a b ∧ Relation.ReflTransGen R b l := by
        rcases ha.cases_head with rfl | hb
        · exact Relation.TransGen.head'_iff.mp hl
        · exact hb
      obtain ⟨b, hab, hbl⟩ := hnext
      obtain ⟨path, hlength, hpath⟩ := ih hbl
      exact ⟨b :: path, by rw [List.length_cons, hlength], .cons_cons hab hpath⟩

/-- 輪を断たず、深さも越えなかったなら、文書から始まる道はどれも跡のとおりにたどられ、段数を越えない。 -/
theorem length_lt_of_isChain (hself : r.LoadsRoot root) (left : Nat) :
    ∀ v, r.Sourced root v →
      (∀ e ∈ r.trail left v, e.isRejected = false ∧ e.isOverrun = false) →
      ∀ path : List Location, (v.location :: path).IsChain (r.Extends root) → path.length < left := by
  induction left with
  | zero =>
      intro v _ hquiet _ _
      have hover := (hquiet (.overran v) (by simp [trail])).2
      cases hover
  | succ left ih =>
      intro v hv hquiet path hpath
      cases path with
      | nil => exact Nat.succ_pos left
      | cons m path =>
          obtain ⟨hedge, hrest⟩ := List.isChain_cons_cons.mp hpath
          obtain ⟨⟨d, hd, reference, href, hr⟩, hm⟩ := hedge
          have hdoc : d = v.document := Option.some.inj (hd.symm.trans hv.source)
          subst hdoc
          have hbranch : ∀ e ∈ r.branch (r.trail left) v reference, e ∈ r.trail (left + 1) v :=
            fun e he => List.mem_flatMap.mpr ⟨reference, href, he⟩
          have hhead := hquiet _ (hbranch _ List.mem_cons_self)
          -- 道の初めの辺を断っていないので、その先の文書を重ねている。
          rcases hv.fate_of_edge hself hr hm with ⟨hfate, -⟩ | ⟨x, hfate⟩
          · rw [hfate] at hhead
            cases hhead.1
          · have hnext : (r.fate v reference).next? v = some (v.parent m x) := by rw [hfate]; rfl
            have hbelow : ∀ e ∈ r.trail left (v.parent m x),
                e.isRejected = false ∧ e.isOverrun = false := by
              intro e he
              refine hquiet e (hbranch e ?_)
              rw [branch, hnext]
              exact List.mem_cons_of_mem _ he
            have hlt := ih (v.parent m x) (hv.parent hself hnext) hbelow path hrest
            rw [List.length_cons]
            omega

/-- 根から届く輪があれば、どこかで輪を断つか、深さが越える。 -/
theorem exists_cut_or_overrun {d : Document} {base : String} (hself : r.LoadsRoot (r.root d base))
    {l : Location} (hl : r.Reaches (r.root d base) l)
    (hcircuit : Relation.TransGen (r.Extends (r.root d base)) l l) :
    ∃ e ∈ r.events d base, e.isRejected = true ∨ e.isOverrun = true := by
  by_contra hnone
  push Not at hnone
  have hquiet : ∀ e ∈ r.events d base, e.isRejected = false ∧ e.isOverrun = false := by
    intro e he
    obtain ⟨hrejected, hover⟩ := hnone e he
    exact ⟨Bool.eq_false_iff.mpr hrejected, Bool.eq_false_iff.mpr hover⟩
  obtain ⟨path, hlength, hpath⟩ := exists_long_chain hl hcircuit (r.options.maxDepth + 1)
  have hlt := length_lt_of_isChain hself (r.options.maxDepth + 1) (r.root d base) sourced_root
    hquiet path hpath
  omega

theorem Circuit.transGen {path : List Location} (h : r.Circuit root path) :
    ∃ l, r.Reaches root l ∧ Relation.TransGen (r.Extends root) l l := by
  obtain ⟨l, inner, rfl, -, hpath, hl⟩ := h
  refine ⟨l, hl, ?_⟩
  rw [Relation.TransGen.head'_iff]
  cases inner with
  | nil => exact ⟨l, (List.isChain_cons_cons.mp hpath).1, .refl⟩
  | cons m inner =>
      obtain ⟨hedge, hrest⟩ := List.isChain_cons_cons.mp hpath
      exact ⟨m, hedge, List.relationReflTransGen_of_exists_isChain_cons (inner ++ [l]) hrest (by simp)⟩

end Resolver

theorem Store.load_of_notMem {documents : List (Location × Document)} {l : Location}
    (h : ∀ p ∈ documents, l ≠ p.1) :
    Store.load { documents := ⟨documents⟩ } l = .error (.notFound l) := by
  have hnone : documents.lookup l = none :=
    List.lookup_eq_none_iff.mpr fun p hp => bne_iff_ne.mpr (h p hp)
  simp only [Store.load, Shelf.get?, List.lookup_nil, hnone]

/-- `b` と `c` が互いを親とする系譜。 -/
def Resolver.ring : Resolver where
  load := Store.load { documents := ⟨[("b", { parents := ["c"] }), ("c", { parents := ["b"] })]⟩ }
  addressing := ⟨id, fun reference _ => .ok reference⟩

end SpecLineage
