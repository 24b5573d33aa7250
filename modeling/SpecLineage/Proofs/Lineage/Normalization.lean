import SpecLineage.Proofs.Lineage.Location

/-!
# 正規の形の文字列

場所の正規の形は、斜線で区切り直しても空の名や `.` を含まず、`..` は相対経路の頭に連なるほかには現れない。この形の文字列は
それ自身の正規の形であり、ほかの文字列はそうでない。経路をつなぐときは、つながれる経路を先に正規の形にしておいても、つなぐ経路を
正規の形の同じものに取り替えても、つないだ先の正規の形は変わらない。
-/

namespace SpecLineage
namespace Location

/-- 根の斜線を除いた文字。 -/
def afterRoot (s : String) : List Char :=
  if (Path.ofString s).rooted then s.toList.tail else s.toList

/-- 根の斜線を除き、斜線で区切った名。区切りの間が空なら空の名も、続く斜線の間の名も挙げる。 -/
def segments (s : String) : List String :=
  if afterRoot s = [] then [] else ((afterRoot s).splitOn '/').map String.ofList

example : segments "/a//b/" = ["a", "", "b", ""] := by decide +kernel

theorem toList_eq (s : String) :
    s.toList = (if (Path.ofString s).rooted then ['/'] else []) ++ afterRoot s := by
  by_cases h : (Path.ofString s).rooted = true
  · have hhead : s.toList.head? = some '/' := by simpa [Path.ofString] using h
    obtain ⟨cs, hcs⟩ := List.head?_eq_some_iff.mp hhead
    simp [afterRoot, h, hcs]
  · simp [afterRoot, h]

theorem afterRoot_eq_intercalate (s : String) :
    afterRoot s = ['/'].intercalate ((segments s).map String.toList) := by
  unfold segments
  split
  · rename_i hafter
    exact hafter
  · have hmap : (((afterRoot s).splitOn '/').map String.ofList).map String.toList =
        (afterRoot s).splitOn '/' := by
      rw [List.map_map]
      exact (List.map_congr_left fun cs _ => String.toList_ofList).trans (List.map_id' _)
    rw [hmap, List.intercalate_splitOn]

theorem names_ofString (s : String) :
    (Path.ofString s).names = (segments s).filter fun name => !Path.isFiller name.toList := by
  have hsplit : (Path.splitSlash s.toList).filter (!Path.isFiller ·) =
      ((afterRoot s).splitOn '/').filter (!Path.isFiller ·) := by
    rw [toList_eq s, ← Path.splitSlash_eq_splitOn]
    split
    · -- 根の斜線の前には、名の列に現れない空の名ができる。
      rfl
    · rfl
  rw [Path.ofString, hsplit, segments]
  split
  · rename_i hafter
    rw [hafter]
    rfl
  · rw [List.filter_map]
    simp only [Function.comp_def, String.toList_ofList]

theorem isAbsolute_toString {p : Path} (h : p.Clean) : IsAbsolute p.toString ↔ p.rooted = true := by
  rw [IsAbsolute, Path.ofString_toString h]

theorem toList_toString (p : Path) : p.toString.toList =
    (if p.rooted then ['/'] else []) ++ ['/'].intercalate (p.names.map String.toList) := by
  rw [Path.toString, String.toList_append, String.toList_intercalate]
  cases p.rooted <;> rfl

theorem afterRoot_toString {p : Path} (h : p.Clean) :
    afterRoot p.toString = ['/'].intercalate (p.names.map String.toList) := by
  rw [afterRoot, Path.ofString_toString h, toList_toString]
  cases p.rooted <;> rfl

theorem segments_toString {p : Path} (h : p.Clean) : segments p.toString = p.names := by
  rw [segments, afterRoot_toString h]
  by_cases hnames : p.names = []
  · rw [hnames]
    rfl
  · have hslash : ∀ cs ∈ p.names.map String.toList, '/' ∉ cs :=
      List.forall_mem_map.mpr fun name hname => (h name hname).2
    have hsplit := List.splitOn_intercalate '/' hslash (by simpa using hnames)
    have hmap : (p.names.map String.toList).map String.ofList = p.names := by
      rw [List.map_map]
      exact (List.map_congr_left fun name _ => String.ofList_toList).trans (List.map_id' _)
    rw [if_neg, hsplit, hmap]
    intro hempty
    rw [hempty] at hsplit
    have hmem : [] ∈ p.names.map String.toList := hsplit ▸ List.mem_singleton_self []
    obtain ⟨name, hname, hnil⟩ := List.mem_map.mp hmem
    have hfiller := (h name hname).1
    rw [hnil] at hfiller
    cases hfiller

/-! ## 正規の形の文字列 -/

/-- 区切りの間の名が空でも `.` でもなく、`..` は相対経路の頭に連なるほかには現れない。 -/
structure Canonical (s : String) : Prop where
  named : ∀ name ∈ segments s, name ≠ "" ∧ name ≠ "."
  ascending : ∃ ups rest, segments s = List.replicate ups ".." ++ rest ∧ ".." ∉ rest ∧
    (IsAbsolute s → ups = 0)

theorem isFiller_eq_false_iff {name : String} :
    Path.isFiller name.toList = false ↔ name ≠ "" ∧ name ≠ "." := by
  have hempty : name.toList = "".toList ↔ name = "" := String.toList_inj
  have hdot : name.toList = ".".toList ↔ name = "." := String.toList_inj
  rw [Path.isFiller, Bool.or_eq_false_iff, beq_eq_false_iff_ne, beq_eq_false_iff_ne]
  exact and_congr (not_congr hempty) (not_congr hdot)

theorem canonical_toString {p : Path} (hclean : p.Clean) (hascending : p.Ascending) :
    Canonical p.toString where
  named name hname := by
    rw [segments_toString hclean] at hname
    exact isFiller_eq_false_iff.mp (hclean name hname).1
  ascending := by
    obtain ⟨ups, rest, hnames, hrest, hrooted⟩ := hascending
    exact ⟨ups, rest, (segments_toString hclean).trans hnames, hrest,
      fun h => hrooted ((isAbsolute_toString hclean).mp h)⟩

namespace Canonical

variable {s : String}

theorem names_eq (h : Canonical s) : (Path.ofString s).names = segments s := by
  rw [names_ofString, List.filter_eq_self]
  intro name hname
  rw [isFiller_eq_false_iff.mpr (h.named name hname)]
  rfl

theorem toString_eq (h : Canonical s) : (Path.ofString s).toString = s := by
  rw [← String.toList_inj, toList_toString, h.names_eq, ← afterRoot_eq_intercalate, toList_eq s]

theorem ascending_ofString (h : Canonical s) : (Path.ofString s).Ascending := by
  obtain ⟨ups, rest, hsegments, hrest, habsolute⟩ := h.ascending
  exact ⟨ups, rest, h.names_eq.trans hsegments, hrest, habsolute⟩

theorem eq_root (h : Canonical s) (hlast : s.toList.getLast? = some '/') : s = "/" := by
  rw [toList_eq s] at hlast
  by_cases hafter : afterRoot s = []
  · rw [hafter, List.append_nil] at hlast
    rw [← String.toList_inj, toList_eq s, hafter, List.append_nil]
    split at hlast
    · exact if_pos ‹_›
    · cases hlast
  · -- 斜線の後には空の名ができる。
    rw [List.getLast?_append, Option.or_of_isSome (by simpa using hafter)] at hlast
    obtain ⟨front, hfront⟩ := List.getLast?_eq_some_iff.mp hlast
    have hsplit : (afterRoot s).splitOn '/' = front.splitOn '/' ++ [[]] := by
      rw [hfront]
      exact List.splitOnP_append_cons front [] (beq_self_eq_true '/')
    have hempty : "" ∈ segments s := by
      rw [segments, if_neg hafter, hsplit]
      exact List.mem_map.mpr ⟨[], by simp, rfl⟩
    exact absurd rfl (h.named "" hempty).1

end Canonical

theorem normalize_eq_self_iff {s : String} : normalize s = s ↔ Canonical s := by
  constructor
  · intro h
    rw [← h]
    exact canonical_toString (Path.clean_normal (Path.clean_ofString s)) (Path.ascending_normal _)
  · intro h
    rw [normalize, Path.normal_of_ascending h.ascending_ofString, h.toString_eq]

/-! ## 経路をつなぐ -/

/-- 経路の後に、要れば斜線を補って、別の経路をつないだもの。つなぐ経路が根から始まれば、それだけを取る。 -/
def attach (p q : String) : String :=
  if (Path.ofString q).rooted then q
  else if p = "" ∨ p.toList.getLast? = some '/' then p ++ q
  else p ++ "/" ++ q

theorem names_append_slash (cs ds : List Char) :
    (Path.splitSlash (cs ++ '/' :: ds)).filter (!Path.isFiller ·) =
      (Path.splitSlash cs).filter (!Path.isFiller ·) ++
        (Path.splitSlash ds).filter (!Path.isFiller ·) := by
  rw [Path.splitSlash_eq_splitOn, Path.splitSlash_eq_splitOn, Path.splitSlash_eq_splitOn,
    ← List.filter_append]
  exact congrArg _ (List.splitOnP_append_cons cs ds (beq_self_eq_true '/'))

/-- 斜線の後に `q` の続く文字列は、斜線の前の名が `p` の名なら、`p` に `q` をつないだ経路を表す。 -/
theorem ofString_slash {s p q : String} {front : List Char}
    (hs : s.toList = front ++ '/' :: q.toList)
    (hrooted : (s.toList.head? == some '/') = (Path.ofString p).rooted)
    (hnames : (Path.splitSlash p.toList).filter (!Path.isFiller ·) =
      (Path.splitSlash front).filter (!Path.isFiller ·)) :
    Path.ofString s =
      ⟨(Path.ofString p).rooted, (Path.ofString p).names ++ (Path.ofString q).names⟩ := by
  rw [Path.ofString, hrooted, hs, names_append_slash, List.map_append, ← hnames]
  rfl

theorem ofString_attach (p q : String) :
    Path.ofString (attach p q) = (Path.ofString p).join (Path.ofString q) := by
  cases hrooted : (Path.ofString q).rooted with
  | true =>
      rw [attach, if_pos hrooted]
      exact (if_pos hrooted).symm
  | false =>
      rw [Path.join_of_relative _ hrooted, attach, hrooted, if_neg Bool.false_ne_true]
      by_cases hempty : p = ""
      · subst hempty
        rw [if_pos (Or.inl rfl), String.empty_append]
        exact Path.ext_names hrooted rfl
      · have hne : p.toList ≠ [] := mt String.toList_eq_nil_iff.mp hempty
        have hhead : ∀ cs, (p.toList ++ cs).head? = p.toList.head? := fun cs => by
          rw [List.head?_append, Option.or_of_isSome (List.isSome_head?.mpr hne)]
        by_cases hlast : p.toList.getLast? = some '/'
        · obtain ⟨front, hfront⟩ := List.getLast?_eq_some_iff.mp hlast
          have htext : (p ++ q).toList = front ++ '/' :: q.toList := by
            rw [String.toList_append, hfront, List.append_assoc]
            rfl
          rw [if_pos (Or.inr hlast)]
          refine ofString_slash htext ?_ ?_
          · rw [String.toList_append, hhead]
            rfl
          · rw [hfront, names_append_slash]
            exact List.append_nil _
        · rw [if_neg (not_or.mpr ⟨hempty, hlast⟩)]
          have htext : (p ++ "/" ++ q).toList = p.toList ++ '/' :: q.toList := by
            rw [String.toList_append, String.toList_append, List.append_assoc]
            rfl
          refine ofString_slash htext ?_ rfl
          rw [htext, hhead]
          rfl

theorem normalize_attach_congr {p p' q q' : String} (hp : normalize p = normalize p')
    (hq : normalize q = normalize q') : normalize (attach p q) = normalize (attach p' q') := by
  rw [normalize_eq_iff] at hp hq ⊢
  rw [ofString_attach, ofString_attach, ← Path.normal_join, hp, hq, Path.normal_join]

end Location

/-- 正規の形は、つなぐ前にとっても後にとっても同じであり、正規の形の文字列はそれ自身の正規の形である。 -/
theorem normalize_canonical :
    (∀ p, Location.normalize (Location.normalize p) = Location.normalize p ∧
      Location.Canonical (Location.normalize p) ∧
      ((Location.normalize p).toList.getLast? = some '/' → Location.normalize p = "/") ∧
      (Location.IsAbsolute (Location.normalize p) ↔ Location.IsAbsolute p)) ∧
    (∀ s, Location.normalize s = s ↔ Location.Canonical s) ∧
    (∀ p q, Location.normalize (Location.attach p q) =
      Location.normalize (Location.attach (Location.normalize p) q)) ∧
    ∀ p q₁ q₂, Location.normalize q₁ = Location.normalize q₂ →
      Location.normalize (Location.attach p q₁) = Location.normalize (Location.attach p q₂) := by
  refine ⟨fun p => ?_, fun s => Location.normalize_eq_self_iff, fun p q => ?_, fun p q₁ q₂ h => ?_⟩
  · have hfixed := Location.normalize_normalize p
    have hcanonical := Location.normalize_eq_self_iff.mp hfixed
    exact ⟨hfixed, hcanonical, hcanonical.eq_root, Location.isAbsolute_normalize⟩
  · exact Location.normalize_attach_congr (Location.normalize_normalize p).symm rfl
  · exact Location.normalize_attach_congr rfl h

/-- つなぐ経路が `..` で始まれば、正規の形にした後でも、つながれる経路の名を取り消す。 -/
theorem normalize_canonical_detour :
    Location.normalize "a/../../b//" = "../b" ∧ Location.Canonical "../b" ∧
      Location.normalize "./../c/." = Location.normalize "..//x/../c" ∧
      Location.normalize (Location.attach "a/../../b//" "./../c/.") = "../c" ∧
      Location.normalize (Location.attach "../b" "..//x/../c") = "../c" := by
  have hp : Location.normalize "a/../../b//" = "../b" := by decide +kernel
  have hq : Location.normalize "./../c/." = Location.normalize "..//x/../c" := by decide +kernel
  have hjoined : Location.normalize (Location.attach "../b" "..//x/../c") = "../c" := by
    decide +kernel
  obtain ⟨hform, -, hbase, hrest⟩ := normalize_canonical
  have hcanonical := (hform "a/../../b//").2.1
  rw [hp] at hcanonical
  refine ⟨hp, hcanonical, hq, ?_, hjoined⟩
  rw [hrest "a/../../b//" "./../c/." "..//x/../c" hq, hbase, hp, hjoined]

end SpecLineage
