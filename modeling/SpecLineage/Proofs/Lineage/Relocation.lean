import SpecLineage.Lineage.Store
import SpecLineage.Lineage.Outcome
import SpecLineage.Proofs.Lineage.Location
import SpecLineage.Proofs.Lineage.Renaming

/-!
# 置き場所によらない解決

文書の木を丸ごと別の絶対経路の下に移しても、参照が木の外へ出なければ、解決の結果は場所の頭が換わるだけである。木の下での
解決は、木の中だけの相対の場所での解決を、その置き場所の下に移したものになる。
-/

namespace SpecLineage

namespace Location

/-! ## 木の中の場所 -/

/-- 木の中の場所。正規の形の相対経路で、親から始まらない。空の経路は木の頭を表す。 -/
def Within : Set Location :=
  {k | normalize k = k ∧ ¬IsAbsolute k ∧ (Path.ofString k).names.head? ≠ some ".."}

/-- 木の中の文書の場所。 -/
def Inside (k : Location) : Prop := k ≠ "" ∧ k ∈ Within

/-- 木を置く所。正規の形の絶対経路である。 -/
def Directory (p : String) : Prop := normalize p = p ∧ IsAbsolute p

/-- 木を `p` に置いたときの、木の中の場所 `k` の場所。 -/
def under (p : String) (k : Location) : Location :=
  ((Path.ofString p).join (Path.ofString k)).toString

/-- 場所 `k` の文書に書かれた参照が、空白だけであるか、木の外へ出ない相対の参照である。 -/
def StaysInside (reference : String) (k : Location) : Prop :=
  IsBlankText reference ∨ ¬IsAbsolute (trimBlank reference) ∧
    (Path.ofString (normalize (joined reference k))).names.head? ≠ some ".."

instance (s : String) : Decidable (IsAbsolute s) :=
  inferInstanceAs (Decidable ((Path.ofString s).rooted = true))

instance (k : Location) : Decidable (k ∈ Within) :=
  inferInstanceAs (Decidable
    (normalize k = k ∧ ¬IsAbsolute k ∧ (Path.ofString k).names.head? ≠ some ".."))

instance (k : Location) : Decidable (Inside k) :=
  inferInstanceAs (Decidable (k ≠ "" ∧ k ∈ Within))

instance (p : String) : Decidable (Directory p) :=
  inferInstanceAs (Decidable (normalize p = p ∧ IsAbsolute p))

instance (reference : String) (k : Location) : Decidable (StaysInside reference k) :=
  inferInstanceAs (Decidable (IsBlankText reference ∨ ¬IsAbsolute (trimBlank reference) ∧
    (Path.ofString (normalize (joined reference k))).names.head? ≠ some ".."))

theorem rooted_of_within {k : Location} (h : k ∈ Within) : (Path.ofString k).rooted = false :=
  Bool.eq_false_iff.mpr h.2.1

theorem normal_of_normalize {s : String} (h : normalize s = s) :
    (Path.ofString s).normal = Path.ofString s := by
  rw [← ofString_normalize, h]

theorem ext_of_normalize {s t : String} (hs : normalize s = s) (ht : normalize t = t)
    (h : Path.ofString s = Path.ofString t) : s = t := by
  rw [← hs, ← ht, normalize, h, normalize]

theorem notMem_of_within {k : Location} (h : k ∈ Within) : ".." ∉ (Path.ofString k).names := by
  have hnormal := normal_of_normalize h.1
  rw [← hnormal]
  exact Path.notMem_normal_of_head? (rooted_of_within h) (by rw [hnormal]; exact h.2.2)

theorem names_ne_nil {k : Location} (h : Inside k) : (Path.ofString k).names ≠ [] := by
  intro hnil
  have hempty : Path.ofString k = Path.ofString "" := Path.ext_names (rooted_of_within h.2) hnil
  have hroot : normalize "" = "" := by decide +kernel
  exact h.1 (ext_of_normalize h.2.1 hroot hempty)

theorem within_normalize_joined {reference : String} {k : Location} (hk : k ∈ Within)
    (habsolute : ¬IsAbsolute (trimBlank reference))
    (hhead : (Path.ofString (normalize (joined reference k))).names.head? ≠ some "..") :
    normalize (joined reference k) ∈ Within := by
  refine ⟨normalize_normalize _, ?_, hhead⟩
  rw [isAbsolute_normalize, isAbsolute_joined]
  exact not_or_intro habsolute fun h => hk.2.1 h.1

/-! ## 木を置いた先の場所 -/

variable {p : String} {k : Location}

theorem ofString_under (p : String) (k : Location) :
    Path.ofString (under p k) = (Path.ofString p).join (Path.ofString k) :=
  Path.ofString_toString (Path.clean_join (Path.clean_ofString p) (Path.clean_ofString k))

example : under "/" "a/b.yaml" = "/a/b.yaml" ∧ under "/srv/x" "a/b.yaml" = "/srv/x/a/b.yaml" := by
  decide +kernel

theorem Directory.notMem (h : Directory p) : ".." ∉ (Path.ofString p).names := by
  rw [← normal_of_normalize h.1]
  exact Path.notMem_normal_of_rooted h.2

theorem Directory.normalize_under (h : Directory p) (hk : k ∈ Within) :
    normalize (under p k) = under p k := by
  have hk' := normal_of_normalize hk.1
  rw [normalize, ofString_under, Path.normal_join_of_notMem h.notMem (rooted_of_within hk)
    (hk'.symm ▸ notMem_of_within hk), hk']
  rfl

theorem injOn_under (p : String) : Set.InjOn (under p) Within := by
  intro k hk l hl heq
  have hpath := congrArg Path.ofString heq
  rw [ofString_under, ofString_under, Path.join_of_relative _ (rooted_of_within hk),
    Path.join_of_relative _ (rooted_of_within hl), Path.mk.injEq] at hpath
  have hrooted := (rooted_of_within hk).trans (rooted_of_within hl).symm
  exact ext_of_normalize hk.1 hl.1
    (Path.ext_names hrooted (List.append_cancel_left hpath.2))

/-- 木の中でつないだ先は、木を置いてからつないでも、置いた先の同じ場所である。 -/
theorem Directory.normalize_joined_under {reference : String} (h : Directory p) (hk : Inside k)
    (habsolute : ¬IsAbsolute (trimBlank reference))
    (hhead : (Path.ofString (normalize (joined reference k))).names.head? ≠ some "..") :
    normalize (joined reference (under p k)) = under p (normalize (joined reference k)) := by
  -- 文書の置き場所は木の中で決まるので、木の頭へつなぐのを最後に回せる。
  have hjoined : Path.ofString (joined reference (under p k)) =
      (Path.ofString p).join (Path.ofString (joined reference k)) := by
    rw [ofString_joined, ofString_joined, ofString_under,
      Path.parent_join _ (rooted_of_within hk.2) (names_ne_nil hk), Path.join_assoc]
  have hwithin := within_normalize_joined hk.2 habsolute hhead
  have hnormal := ofString_normalize (joined reference k)
  have hrelative : (Path.ofString (joined reference k)).rooted = false := by
    have := rooted_of_within hwithin
    rwa [hnormal] at this
  have hinside := notMem_of_within hwithin
  rw [hnormal] at hinside
  rw [normalize, hjoined, Path.normal_join_of_notMem h.notMem hrelative hinside, ← hnormal]
  rfl

/-! ## 木の中の解決との対応 -/

theorem follows_under (h : Directory p) (hk : Inside k) {d : Document}
    (hd : ∀ reference ∈ d.parents, StaysInside reference k) {r r' : Resolver}
    (hr : r.addressing.resolve = resolve) (hr' : r'.addressing.resolve = resolve) :
    Resolver.Follows (under p) Within r r' k d := by
  intro reference href
  rw [hr, hr']
  by_cases hblank : IsBlankText reference
  · rw [resolve_of_blank hblank, resolve_of_blank hblank]
    exact ⟨rfl, fun m hm => nomatch hm⟩
  · obtain ⟨habsolute, hhead⟩ := (hd reference href).resolve_left hblank
    rw [resolve_of_not_blank hblank, resolve_of_not_blank hblank,
      h.normalize_joined_under hk habsolute hhead]
    exact ⟨rfl, fun m hm => Option.some.inj hm ▸ within_normalize_joined hk.2 habsolute hhead⟩

end Location

/-! ## 棚 -/

namespace Shelf

/-- 木を `p` に置いた棚。 -/
def under (T : Shelf) (p : String) : Shelf := ⟨T.entries.map fun e => (Location.under p e.1, e.2)⟩

variable {T : Shelf} {p : String} {k : Location}

theorem mem_of_get? (T : Shelf) {l : Location} {d : Document} (h : T.get? l = some d) :
    (l, d) ∈ T.entries := by
  obtain ⟨before, after, hentries, -⟩ := List.lookup_eq_some_iff.mp h
  rw [hentries]
  exact List.mem_append_right before List.mem_cons_self

theorem get?_under (hT : ∀ e ∈ T.entries, Location.Inside e.1)
    (hk : k ∈ Location.Within) : (T.under p).get? (Location.under p k) = T.get? k := by
  obtain ⟨entries⟩ := T
  change (entries.map fun e => (Location.under p e.1, e.2)).lookup _ = entries.lookup k
  induction entries with
  | nil => rfl
  | cons e entries ih =>
      have hiff : Location.under p k = Location.under p e.1 ↔ k = e.1 :=
        (Location.injOn_under p).eq_iff hk (hT e List.mem_cons_self).2
      rw [List.map_cons, List.lookup_cons, List.lookup_cons,
        ih fun e he => hT e (List.mem_cons_of_mem _ he)]
      simp only [beq_eq_decide, hiff]

end Shelf

namespace Resolver

/-- 棚に置いた文書を、経路による場所から読み込む解決。 -/
def ofShelf (T : Shelf) (options : Options) : Resolver where
  load := Store.load { documents := T }
  options := options

theorem options_ofShelf (T : Shelf) (options : Options) : (ofShelf T options).options = options :=
  rfl

theorem normalize_ofShelf (T : Shelf) (options : Options) :
    (ofShelf T options).addressing.normalize = Location.normalize := by
  simp only [ofShelf, Addressing.path]

theorem resolve_ofShelf (T : Shelf) (options : Options) :
    (ofShelf T options).addressing.resolve = Location.resolve := by
  simp only [ofShelf, Addressing.path]

theorem load_ofShelf (T : Shelf) (options : Options) (l : Location) :
    ((ofShelf T options).load l).toOption = T.get? l := by
  simp only [ofShelf, Store.load]
  cases T.get? l <;> rfl

variable {T : Shelf} {options : Options} {p : String}

theorem moved_under (h : Location.Directory p) (hT : ∀ e ∈ T.entries, Location.Inside e.1)
    (hrefs : ∀ k e, T.get? k = some e → ∀ reference ∈ e.parents, Location.StaysInside reference k) :
    Moved (Location.under p) Location.Within (ofShelf T options) (ofShelf (T.under p) options) where
  injOn := Location.injOn_under p
  options := by rw [options_ofShelf, options_ofShelf]
  load l hl := by rw [load_ofShelf, load_ofShelf, Shelf.get?_under hT hl]
  follows l _ d hload := by
    have hd : T.get? l = some d := by rw [← load_ofShelf T options, hload]; rfl
    exact Location.follows_under h (hT (l, d) (T.mem_of_get? hd)) (hrefs l d hd)
      (resolve_ofShelf T options) (resolve_ofShelf (T.under p) options)

theorem normalize_under (h : Location.Directory p) {b : Location} (hb : Location.Inside b) :
    (ofShelf (T.under p) options).addressing.normalize (Location.under p b) =
      Location.under p ((ofShelf T options).addressing.normalize b) := by
  rw [normalize_ofShelf, normalize_ofShelf, h.normalize_under hb.2, hb.2.1]

theorem settled_root (h : Location.Directory p) {b : Location} (hb : Location.Inside b)
    {d : Document} (hroot : ∀ reference ∈ d.parents, Location.StaysInside reference b) :
    Settled (Location.under p) Location.Within (ofShelf T options) (ofShelf (T.under p) options)
      ((ofShelf T options).root d b) := by
  rw [root, normalize_ofShelf, hb.2.1]
  refine ⟨fun l hl => ?_, Location.follows_under h hb hroot (resolve_ofShelf T options)
    (resolve_ofShelf (T.under p) options)⟩
  rw [List.mem_singleton.mp hl]
  exact hb.2

end Resolver

/-- 棚 `T` の木を `p` に置き、木の中の場所 `b` にある文書 `d` を解いた結果。 -/
def Shelf.resolveUnder (T : Shelf) (options : Options) (d : Document) (b : Location) (p : String) :
    Resolution :=
  (Resolver.ofShelf (T.under p) options).resolve d (Location.under p b)

/-- 木をどこに置いて解いても、解いた文書も、診断の符号と重さも同じであり、祖先と読み込みを頼んだ場所は、置き場所が
換わるだけである。 -/
theorem resolve_relocated (T : Shelf) (b : Location) (d : Document) (options : Options)
    (p q : String) (hp : Location.Directory p) (hq : Location.Directory q)
    (hT : ∀ e ∈ T.entries, Location.Inside e.1) (hb : Location.Inside b)
    (hroot : ∀ reference ∈ d.parents, Location.StaysInside reference b)
    (hrefs : ∀ k e, T.get? k = some e → ∀ reference ∈ e.parents, Location.StaysInside reference k) :
    let run := T.resolveUnder options d b
    (run p).outcome.resolved = (run q).outcome.resolved ∧
    (run p).outcome.digest = (run q).outcome.digest ∧
    (run p).outcome.errors.map Diagnostic.kind = (run q).outcome.errors.map Diagnostic.kind ∧
    (run p).outcome.warnings.map Diagnostic.kind = (run q).outcome.warnings.map Diagnostic.kind ∧
    (run p).outcome.valid = (run q).outcome.valid ∧
    (run p).outcome.suppressed = (run q).outcome.suppressed ∧
    ∃ ancestors requests : List Location, (∀ l ∈ ancestors ++ requests, l ∈ Location.Within) ∧
      (run p).outcome.ancestors = ancestors.map (Location.under p) ∧
      (run q).outcome.ancestors = ancestors.map (Location.under q) ∧
      (run p).requests = requests.map (Location.under p) ∧
      (run q).requests = requests.map (Location.under q) := by
  intro run
  have hmoved : ∀ p, Location.Directory p → Resolution.Moved (Location.under p) Location.Within
      ((Resolver.ofShelf T options).resolve d b) (run p) := by
    intro p hp
    exact (Resolver.moved_under hp hT hrefs).resolve_moved
      (Resolver.settled_root hp hb hroot) (Resolver.normalize_under hp hb)
  have hp := hmoved p hp
  have hq := hmoved q hq
  have hresolved := hp.resolved.trans hq.resolved.symm
  refine ⟨hresolved, ?_, hp.errors.trans hq.errors.symm,
    hp.warnings.trans hq.warnings.symm, hp.valid.trans hq.valid.symm,
    hp.suppressed.trans hq.suppressed.symm, _, _, fun l hl => ?_, hp.ancestors, hq.ancestors,
    hp.requests, hq.requests⟩
  · rw [Outcome.digest, Outcome.digest, hresolved]
  · exact (List.mem_append.mp hl).elim (hp.ancestors_mem l) (hp.requests_mem l)

/-- 互いを親とする二つの文書と、ない文書への参照。根の頭に置いた木と、深い所に置いた木とで解く。 -/
theorem resolve_relocated_root :
    let T : Shelf := ⟨[("lib/base.yaml", { parents := ["../team/./core.yaml", " "] }),
      ("team/core.yaml", { parents := ["../lib/x/../base.yaml"], imports := ["core"] })]⟩
    let d : Document := { parents := ["../lib/base.yaml", "missing.yaml"] }
    Location.Directory "/" ∧ Location.Directory "/srv/specs" ∧
    (∀ e ∈ T.entries, Location.Inside e.1) ∧ Location.Inside "team/app.yaml" ∧
    (∀ reference ∈ d.parents, Location.StaysInside reference "team/app.yaml") ∧
    (∀ k e, T.get? k = some e → ∀ reference ∈ e.parents, Location.StaysInside reference k) ∧
    (T.resolveUnder {} d "team/app.yaml" "/").outcome.resolved =
      (T.resolveUnder {} d "team/app.yaml" "/srv/specs").outcome.resolved ∧
    (T.resolveUnder {} d "team/app.yaml" "/srv/specs").outcome.errors.map Diagnostic.kind =
      [(.circularInheritance, .error), (.parentLoadError, .error), (.parentLoadError, .error)] := by
  intro T d
  have hp : Location.Directory "/" := by decide +kernel
  have hq : Location.Directory "/srv/specs" := by decide +kernel
  have hT : ∀ e ∈ T.entries, Location.Inside e.1 := by decide +kernel
  have hb : Location.Inside "team/app.yaml" := by decide +kernel
  have hroot : ∀ reference ∈ d.parents, Location.StaysInside reference "team/app.yaml" := by
    decide +kernel
  have hentries : ∀ e ∈ T.entries, ∀ reference ∈ e.2.parents,
      Location.StaysInside reference e.1 := by decide +kernel
  have hrefs : ∀ k e, T.get? k = some e → ∀ reference ∈ e.parents,
      Location.StaysInside reference k := fun k e h => hentries (k, e) (T.mem_of_get? h)
  have herrors : (T.resolveUnder {} d "team/app.yaml" "/").outcome.errors.map Diagnostic.kind =
      [(.circularInheritance, .error), (.parentLoadError, .error), (.parentLoadError, .error)] := by
    decide +kernel
  obtain ⟨hresolved, -, hkinds, -⟩ :=
    resolve_relocated T "team/app.yaml" d {} "/" "/srv/specs" hp hq hT hb hroot hrefs
  exact ⟨hp, hq, hT, hb, hroot, hrefs, hresolved, hkinds.symm.trans herrors⟩

end SpecLineage
