import Mathlib.Data.List.TakeWhile
import SpecLineage.Lineage.Location
import SpecLineage.Proofs.Path

/-!
# 参照の書きかたによらない場所

参照は、その書きかたも、参照元の場所の書きかたも問わず、正規の形が同じなら同じ場所に解ける。解いた場所は正規の形であり、
空白だけの参照のほかは、どの参照も場所に解ける。
-/

namespace SpecLineage

theorem trimBlank_eq_empty_iff {s : String} : trimBlank s = "" ↔ ∀ c ∈ s.toList, isBlank c = true := by
  rw [trimBlank, ← String.toList_inj, String.toList_ofList, String.toList_empty,
    List.reverse_eq_nil_iff, List.dropWhile_eq_nil_iff]
  constructor
  · intro h c hc
    -- 頭の空白を除いても空白でない文字が残るなら、それが残りの初めの文字になる。
    by_contra hblank
    have hne : s.toList.dropWhile isBlank ≠ [] := by
      rw [Ne, List.dropWhile_eq_nil_iff]
      exact fun hall => hblank (hall c hc)
    have hhead := List.head_dropWhile_not isBlank hne
    rw [h _ (List.mem_reverse.mpr (List.head_mem hne))] at hhead
    cases hhead
  · intro h c hc
    exact h c ((List.dropWhile_suffix isBlank).subset (List.mem_reverse.mp hc))

namespace Location

/-- 空白だけの参照。 -/
def IsBlankText (s : String) : Prop := ∀ c ∈ s.toList, isBlank c = true

/-- 根から始まる。 -/
def IsAbsolute (s : String) : Prop := (Path.ofString s).rooted = true

/-- 最後の名があり、それが `..` でない。 -/
def EndsInName (s : String) : Prop :=
  ∃ before name, (Path.ofString s).names = before ++ [name] ∧ name ≠ ".."

/-- 両端の空白を除いた参照を、参照元の文書の置き場所につないだもの。 -/
def joined (reference base : String) : String :=
  ((Path.ofString base).parent.join (Path.ofString (trimBlank reference))).toString

instance (s : String) : Decidable (IsBlankText s) :=
  decidable_of_iff (s.toList.all isBlank = true) List.all_eq_true

/-! ## 正規の形 -/

theorem ofString_joined (reference base : String) : Path.ofString (joined reference base) =
    (Path.ofString base).parent.join (Path.ofString (trimBlank reference)) :=
  Path.ofString_toString
    (Path.clean_join (Path.clean_parent (Path.clean_ofString base)) (Path.clean_ofString _))

theorem ofString_normalize (s : String) :
    Path.ofString (normalize s) = (Path.ofString s).normal :=
  Path.ofString_toString (Path.clean_normal (Path.clean_ofString s))

theorem normalize_eq_iff {s t : String} :
    normalize s = normalize t ↔ (Path.ofString s).normal = (Path.ofString t).normal := by
  constructor
  · intro h
    rw [← ofString_normalize, ← ofString_normalize, h]
  · exact congrArg Path.toString

theorem normalize_normalize (s : String) : normalize (normalize s) = normalize s := by
  rw [normalize_eq_iff, ofString_normalize, Path.normal_normal]

theorem isAbsolute_normalize {s : String} : IsAbsolute (normalize s) ↔ IsAbsolute s := by
  rw [IsAbsolute, ofString_normalize]
  rfl

theorem EndsInName.parent_normalize {b : String} (h : EndsInName b) :
    (Path.ofString (normalize b)).parent = (Path.ofString b).parent.normal := by
  obtain ⟨before, name, hnames, hname⟩ := h
  rw [ofString_normalize, Path.parent_normal hnames hname]

/-! ## 参照を解く -/

theorem resolve_of_blank {r : String} (h : IsBlankText r) (b : Location) :
    resolve r b = .error ⟨"", b, "empty reference"⟩ := by
  simp only [resolve, trimBlank_eq_empty_iff.mpr h, ↓reduceIte]

theorem resolve_of_not_blank {r : String} (h : ¬IsBlankText r) (b : Location) :
    resolve r b = .ok (normalize (joined r b)) := by
  have hne : trimBlank r ≠ "" := fun heq => h (trimBlank_eq_empty_iff.mp heq)
  simp only [resolve, if_neg hne, normalize, ofString_joined]

/-- 参照元の場所を先に正規の形にしておいても、つないだ先は変わらない。 -/
theorem normalize_joined_normalize (r : String) {b : String} (h : EndsInName b) :
    normalize (joined r (normalize b)) = normalize (joined r b) := by
  have hbase := (Path.ofString b).parent.normal.normal_join (Path.ofString (trimBlank r))
  rw [Path.normal_normal, Path.normal_join] at hbase
  rw [normalize_eq_iff, ofString_joined, ofString_joined, h.parent_normalize, hbase]

/-- つないだ先は、参照の正規の形と、参照元の置き場所の正規の形とで決まる。 -/
theorem normalize_joined_congr {r r' b b' : String}
    (hr : normalize (trimBlank r) = normalize (trimBlank r'))
    (hb : (Path.ofString b).parent.normal = (Path.ofString b').parent.normal) :
    normalize (joined r b) = normalize (joined r' b') := by
  rw [normalize_eq_iff] at hr ⊢
  rw [ofString_joined, ofString_joined, ← Path.normal_join, hr, hb, Path.normal_join]

theorem isAbsolute_joined {r b : String} : IsAbsolute (joined r b) ↔
    IsAbsolute (trimBlank r) ∨ IsAbsolute b ∧ (Path.ofString b).names ≠ [] := by
  rw [IsAbsolute, ofString_joined, Path.join, Path.parent, IsAbsolute, IsAbsolute]
  cases hnames : (Path.ofString b).names <;>
    cases hrooted : (Path.ofString (trimBlank r)).rooted <;> simp [hrooted]

end Location

/-- 正規の形が同じ参照は、正規の形が同じ場所から、同じ場所に解ける。解いた場所は正規の形である。 -/
theorem resolve_respelled :
    (∀ r₁ r₂ b₁ b₂ : String, ¬Location.IsBlankText r₁ → ¬Location.IsBlankText r₂ →
      Location.normalize (trimBlank r₁) = Location.normalize (trimBlank r₂) →
      Location.EndsInName b₁ → Location.EndsInName b₂ →
      Location.normalize b₁ = Location.normalize b₂ →
      Location.resolve r₁ (Location.normalize b₁) = Location.resolve r₂ (Location.normalize b₂) ∧
      Location.resolve r₁ (Location.normalize b₁) =
        .ok (Location.normalize (Location.joined r₁ b₁)) ∧
      (Location.IsAbsolute (trimBlank r₁) ∨ Location.IsAbsolute b₁ →
        Location.IsAbsolute (Location.normalize (Location.joined r₁ b₁)))) ∧
    (∀ r b l, Location.resolve r b = .ok l → Location.normalize l = l ∧
      (Location.IsAbsolute l ↔ Location.IsAbsolute (trimBlank r) ∨
        Location.IsAbsolute b ∧ (Path.ofString b).names ≠ [])) ∧
    (∀ r b fault, Location.resolve r b = .error fault ↔
      Location.IsBlankText r ∧ fault = ⟨"", b, "empty reference"⟩) := by
  refine ⟨fun r₁ r₂ b₁ b₂ hr₁ hr₂ hr hb₁ hb₂ hb => ⟨?_, ?_, ?_⟩, fun r b l hl => ?_,
    fun r b fault => ?_⟩
  · have hparent : (Path.ofString b₁).parent.normal = (Path.ofString b₂).parent.normal := by
      rw [← hb₁.parent_normalize, ← hb₂.parent_normalize, hb]
    rw [Location.resolve_of_not_blank hr₁, Location.resolve_of_not_blank hr₂,
      Location.normalize_joined_normalize r₁ hb₁, Location.normalize_joined_normalize r₂ hb₂,
      Location.normalize_joined_congr hr hparent]
  · rw [Location.resolve_of_not_blank hr₁, Location.normalize_joined_normalize r₁ hb₁]
  · intro habsolute
    obtain ⟨before, name, hnames, -⟩ := hb₁
    rw [Location.isAbsolute_normalize, Location.isAbsolute_joined]
    refine habsolute.imp_right fun h => ⟨h, ?_⟩
    rw [hnames]
    exact List.append_ne_nil_of_right_ne_nil before (List.cons_ne_nil name [])
  · by_cases hblank : Location.IsBlankText r
    · rw [Location.resolve_of_blank hblank] at hl
      cases hl
    · rw [Location.resolve_of_not_blank hblank, Except.ok.injEq] at hl
      subst hl
      rw [Location.isAbsolute_normalize, Location.isAbsolute_joined]
      exact ⟨Location.normalize_normalize _, Iff.rfl⟩
  · by_cases hblank : Location.IsBlankText r
    · rw [Location.resolve_of_blank hblank, Except.error.injEq, eq_comm]
      exact (and_iff_right hblank).symm
    · rw [Location.resolve_of_not_blank hblank]
      exact iff_of_false (fun h => nomatch h) fun h => hblank h.1

/-- 正規の形が同じ二つの書きかた。`..` は置き場所の名まで取り消す。 -/
theorem resolve_respelled_detour :
    let b₁ := "/specs/./x//a.yaml"
    let b₂ := "/specs/../specs/x/a.yaml"
    ¬Location.IsBlankText " ../lib/./base.yaml\n" ∧ Location.EndsInName b₁ ∧
      Location.EndsInName b₂ ∧ Location.normalize b₁ = Location.normalize b₂ ∧
      Location.resolve " ../lib/./base.yaml\n" (Location.normalize b₁) = .ok "/specs/lib/base.yaml" ∧
      Location.resolve "..//lib/y/../base.yaml" (Location.normalize b₂) =
        .ok "/specs/lib/base.yaml" := by
  intro b₁ b₂
  have hr₁ : ¬Location.IsBlankText " ../lib/./base.yaml\n" := by decide +kernel
  have hb₁ : Location.EndsInName b₁ := ⟨["specs", "x"], "a.yaml", by decide +kernel, by decide⟩
  have hb₂ : Location.EndsInName b₂ :=
    ⟨["specs", "..", "specs", "x"], "a.yaml", by decide +kernel, by decide⟩
  have hb : Location.normalize b₁ = Location.normalize b₂ := by decide +kernel
  obtain ⟨hsame, -⟩ := resolve_respelled
  obtain ⟨heq, hfirst, -⟩ := hsame " ../lib/./base.yaml\n" "..//lib/y/../base.yaml" b₁ b₂ hr₁
    (by decide +kernel) (by decide +kernel) hb₁ hb₂ hb
  have hl : Location.normalize (Location.joined " ../lib/./base.yaml\n" b₁) =
      "/specs/lib/base.yaml" := by decide +kernel
  rw [hl] at hfirst
  exact ⟨hr₁, hb₁, hb₂, hb, hfirst, heq.symm.trans hfirst⟩

end SpecLineage
