import SpecLineage.Proofs.Toml.Value
import SpecLineage.Toml.Section

/-!
# 書いた TOML の行

書いた文字列を行に戻す。見出しつきの表は、見出しと、それに続く行との組として書かれるので、まず木をその組の列に直し、
次に組ごとに行を読む。
-/

namespace SpecLineage.Toml

variable {rest : List Char}

/-! ## 名 -/

section Name

variable {s : String} {names : List String}

theorem isBare_of_isSimpleName (h : isSimpleName s = true) : ∀ c ∈ s.toList, isBare c = true := by
  intro c hc
  obtain ⟨-, -, hall⟩ := isSimpleName_iff.mp h
  rw [isBare]
  obtain hlower | rfl := hall c hc
  · rw [isAlphanum_of_isLower hlower, Bool.true_or, Bool.true_or]
  · decide

theorem exists_name_eq_cons (h : isSimpleName s = true) :
    ∃ c cs, s.toList = c :: cs ∧ isBare c = true := by
  obtain ⟨c, cs, hs⟩ := List.exists_cons_of_ne_nil (isSimpleName_iff.mp h).1
  exact ⟨c, cs, hs, isBare_of_isSimpleName h c (hs ▸ List.mem_cons_self)⟩

theorem ne_of_isBare {c d : Char} (hc : isBare c = true) (hd : isBare d = false) : c ≠ d := by
  rintro rfl
  rw [hd] at hc
  cases hc

theorem isBlank_of_isBare {c : Char} (h : isBare c = true) : isBlank c = false := by
  simp [isBlank, ne_of_isBare h (d := ' ') rfl, ne_of_isBare h (d := '\t') rfl]

theorem name_append (h : isSimpleName s = true) (hrest : ∀ c ∈ rest.head?, isBare c = false) :
    name (s.toList ++ rest) = some (s, rest) := by
  have hbare := isBare_of_isSimpleName h
  have hdrop : rest.dropWhile isBare = rest := by
    cases rest with
    | nil => rfl
    | cons c rest => exact List.dropWhile_cons_of_neg (by rw [hrest c rfl]; decide)
  have htake : rest.takeWhile isBare = [] := by
    cases rest with
    | nil => rfl
    | cons c rest => exact List.takeWhile_cons_of_neg (by rw [hrest c rfl]; decide)
  obtain ⟨c, cs, hs, hc⟩ := exists_name_eq_cons h
  unfold name
  split
  case h_1 heq =>
    rw [hs] at heq
    exact absurd (List.cons.inj heq).1 (ne_of_isBare hc rfl)
  case h_2 heq =>
    rw [hs] at heq
    exact absurd (List.cons.inj heq).1 (ne_of_isBare hc rfl)
  case h_3 =>
    rw [List.takeWhile_append_of_pos hbare, List.dropWhile_append_of_pos hbare, htake, hdrop,
      List.append_nil]
    simp [(isSimpleName_iff.mp h).1]

theorem skipBlank_name (h : isSimpleName s = true) :
    skipBlank (s.toList ++ rest) = s.toList ++ rest := by
  obtain ⟨c, cs, hs, hc⟩ := exists_name_eq_cons h
  rw [hs, List.cons_append, skipBlank_cons (isBlank_of_isBare hc)]

/-- 点につないだ名の後に続くもの。名も点も続かない。 -/
structure EndsKey (rest : List Char) : Prop where
  isBare : ∀ c ∈ rest.head?, isBare c = false
  ne_dot : ∀ tail, skipBlank rest ≠ '.' :: tail

theorem EndsKey.isBare_names (hrest : EndsKey rest) (names : List String) :
    ∀ c ∈ (names.flatMap (fun s => '.' :: s.toList) ++ rest).head?, Toml.isBare c = false := by
  cases names with
  | nil => exact hrest.isBare
  | cons s names => rintro c ⟨⟩; decide

theorem moreNames_append {n : Nat} (hn : names.length ≤ n)
    (hnames : ∀ s ∈ names, isSimpleName s = true) (hrest : EndsKey rest) :
    moreNames n (skipBlank (names.flatMap (fun s => '.' :: s.toList) ++ rest)) =
      some (names, skipBlank rest) := by
  induction names generalizing n with
  | nil =>
      rw [List.flatMap_nil, List.nil_append]
      unfold moreNames
      split
      case h_1 heq => exact absurd heq (hrest.ne_dot _)
      case h_2 heq => exact absurd heq (hrest.ne_dot _)
      case h_3 => rfl
  | cons s names ih =>
      obtain ⟨hs, hnames⟩ := List.forall_mem_cons.mp hnames
      obtain ⟨n, rfl⟩ : ∃ m, n = m + 1 := Nat.exists_eq_succ_of_ne_zero (by rintro rfl; cases hn)
      rw [List.flatMap_cons, List.cons_append, List.cons_append, skipBlank_cons (by decide),
        List.append_assoc, moreNames, skipBlank_name hs, name_append hs (hrest.isBare_names names)]
      simp only [ih (Nat.le_of_succ_le_succ hn) hnames, Option.bind_eq_bind, Option.bind_some,
        Option.pure_def]

theorem joined_cons (first : List Char) (parts : List (List Char)) :
    joined ['.'] (first :: parts) = first ++ parts.flatMap ('.' :: ·) := by
  induction parts generalizing first with
  | nil => simp [joined]
  | cons part parts ih =>
      rw [List.flatMap_cons, List.cons_append, ← ih part]
      simp [joined, List.intercalate]

/-- 経路の表す、点でつないだ名。 -/
def keyOf (path : List String) : Key := ⟨path.headD "", path.tail⟩

theorem key_path {path : List String} (hne : path ≠ []) (hlength : path.length ≤ limit)
    (hpath : ∀ s ∈ path, isSimpleName s = true) (hrest : EndsKey rest) :
    key (joined ['.'] (path.map String.toList) ++ rest) = some (keyOf path, skipBlank rest) := by
  obtain ⟨first, names, rfl⟩ := List.exists_cons_of_ne_nil hne
  obtain ⟨hfirst, hnames⟩ := List.forall_mem_cons.mp hpath
  have hmore := moreNames_append (n := limit - 1) (Nat.le_sub_one_of_lt hlength) hnames hrest
  rw [List.map_cons, joined_cons, List.flatMap_map, List.append_assoc, key, skipBlank_name hfirst,
    name_append hfirst (hrest.isBare_names names)]
  simp only [hmore, Option.bind_eq_bind, Option.bind_some, Option.pure_def]
  rfl

end Name

/-! ## 節 -/

/-- 見出しと、見出しの指す記録。見出しに続く行は、記録の項目のうち見出しをつけずに書くものである。 -/
structure Block where
  path : List String
  /-- 二重の見出しか。 -/
  repeated : Bool
  members : List (String × Tree)

/-- 見出しをつけずに書く項目の行。 -/
def assignments (ms : List (String × Tree)) : List Assignment :=
  (ms.filter fun (_, t) => !hasHeading t).map fun (key, t) => ⟨⟨key, []⟩, nodeOf t⟩

theorem assignments_cons (key : String) (t : Tree) (ms : List (String × Tree)) :
    assignments ((key, t) :: ms) =
      if hasHeading t then assignments ms else ⟨⟨key, []⟩, nodeOf t⟩ :: assignments ms := by
  cases hheading : hasHeading t <;> simp [assignments, hheading]

namespace Block

/-- 見出しの行。 -/
def headline (b : Block) : List Char :=
  (if b.repeated then "[[" else "[").toList ++ joined ['.'] (b.path.map String.toList) ++
    (if b.repeated then "]]" else "]").toList

/-- 書いた節。前に空行を置く。 -/
def text (b : Block) : List Char := '\n' :: (b.headline ++ '\n' :: plainLines b.members)

/-- 読んだ節。 -/
def toSection (b : Block) : Section := ⟨⟨keyOf b.path, b.repeated⟩, assignments b.members⟩

/-- 節の行。 -/
def lines (b : Block) : List Line :=
  .heading ⟨keyOf b.path, b.repeated⟩ :: (assignments b.members).map .assignment

/-- 読み戻せる節。 -/
structure Regular (b : Block) : Prop where
  ne_nil : b.path ≠ []
  length_le : b.path.length ≤ limit
  isSimpleName : ∀ s ∈ b.path, isSimpleName s = true
  members : Tree.RegularMembers b.members

theorem text_single (path : List String) (ms : List (String × Tree)) :
    text ⟨path, false, ms⟩ = heading path "[" "]" ++ plainLines ms := by
  simp [text, headline, heading]

theorem text_repeated (path : List String) (ms : List (String × Tree)) :
    text ⟨path, true, ms⟩ = heading path "[[" "]]" ++ plainLines ms := by
  simp [text, headline, heading]

end Block

mutual
/-- 見出しをつけて書く項目の節を、順に並べる。 -/
def nestedBlocks (path : List String) : List (String × Tree) → List Block
  | [] => []
  | (key, .record ms) :: rest =>
    let path' := path ++ [key]
    (if showsHeading ms then [⟨path', false, ms⟩] else []) ++ nestedBlocks path' ms ++
      nestedBlocks path rest
  | (key, .list ts) :: rest =>
    (if hasHeading (.list ts) then repeatedBlocks (path ++ [key]) ts else []) ++
      nestedBlocks path rest
  | _ :: rest => nestedBlocks path rest

/-- 記録の並びの節を、順に並べる。 -/
def repeatedBlocks (path : List String) : List Tree → List Block
  | [] => []
  | .record ms :: ts => ⟨path, true, ms⟩ :: nestedBlocks path ms ++ repeatedBlocks path ts
  | _ :: ts => repeatedBlocks path ts
end

/-- 見出しを書かない記録には、見出しに続く行がない。 -/
theorem all_hasHeading_of_showsHeading {ms : List (String × Tree)} (h : showsHeading ms = false) :
    ms ≠ [] ∧ ∀ m ∈ ms, hasHeading m.2 = true := by
  rw [showsHeading, Bool.or_eq_false_iff, List.isEmpty_eq_false_iff, List.any_eq_false] at h
  exact ⟨h.1, fun m hm => by simpa using h.2 m hm⟩

theorem plainLines_of_showsHeading {ms : List (String × Tree)} (h : showsHeading ms = false) :
    plainLines ms = [] := by
  have hfilter : ms.filter (fun (_, t) => !hasHeading t) = [] := by
    rw [List.filter_eq_nil_iff]
    intro m hm
    simp [(all_hasHeading_of_showsHeading h).2 m hm]
  rw [plainLines, hfilter, List.flatMap_nil]

mutual
theorem nested_eq_flatMap : ∀ (path : List String) (ms : List (String × Tree)),
    nested path ms = (nestedBlocks path ms).flatMap Block.text
  | path, [] => by rw [nested, nestedBlocks, List.flatMap_nil]
  | path, (key, .record ms) :: rest => by
      rw [nested, nestedBlocks, nested_eq_flatMap (path ++ [key]) ms, nested_eq_flatMap path rest,
        List.flatMap_append, List.flatMap_append]
      cases hheading : showsHeading ms with
      | true => rw [if_pos rfl, if_pos rfl, List.flatMap_singleton, Block.text_single]
      | false =>
          rw [if_neg Bool.false_ne_true, if_neg Bool.false_ne_true,
            plainLines_of_showsHeading hheading]
          rfl
  | path, (key, .list ts) :: rest => by
      rw [nested, nestedBlocks, nested_eq_flatMap path rest, List.flatMap_append,
        repeated_eq_flatMap (path ++ [key]) ts]
      split <;> rfl
  | path, (_, .text _) :: rest | path, (_, .flag _) :: rest | path, (_, .natural _) :: rest => by
      simp only [nested, nestedBlocks]
      exact nested_eq_flatMap path rest

theorem repeated_eq_flatMap : ∀ (path : List String) (ts : List Tree),
    repeated path ts = (repeatedBlocks path ts).flatMap Block.text
  | path, [] => by rw [repeated, repeatedBlocks, List.flatMap_nil]
  | path, .record ms :: ts => by
      rw [repeated, repeatedBlocks, nested_eq_flatMap path ms, repeated_eq_flatMap path ts,
        List.flatMap_append, List.flatMap_cons, Block.text_repeated]
  | path, .text _ :: ts | path, .flag _ :: ts | path, .natural _ :: ts | path, .list _ :: ts => by
      simp only [repeated, repeatedBlocks]
      exact repeated_eq_flatMap path ts
end

theorem simplePath_concat {path : List String} {key : String}
    (hpath : ∀ s ∈ path, isSimpleName s = true) (hkey : isSimpleName key = true) :
    (∀ s ∈ path ++ [key], isSimpleName s = true) ∧ (path ++ [key]).length = path.length + 1 :=
  ⟨List.forall_mem_append.mpr ⟨hpath, List.forall_mem_singleton.mpr hkey⟩, List.length_append⟩

mutual
/-- 記録を重ねる深さが名の数の限りに収まる木の節は、どれも読み戻せる。 -/
theorem regular_nestedBlocks : ∀ (path : List String) (ms : List (String × Tree)),
    Tree.RegularMembers ms → (∀ s ∈ path, isSimpleName s = true) →
    path.length + Tree.heightMembers ms ≤ limit → ∀ b ∈ nestedBlocks path ms, b.Regular
  | path, [], _, _, _ => by rw [nestedBlocks]; exact nofun
  | path, (key, .record ms) :: rest, hms, hpath, hlimit => by
      rw [Tree.RegularMembers, Tree.Regular] at hms
      rw [Tree.heightMembers, Tree.height] at hlimit
      obtain ⟨hpath', hlength⟩ := simplePath_concat hpath hms.1
      rw [nestedBlocks, List.append_assoc]
      refine List.forall_mem_append.mpr ⟨fun b hb => ?_, List.forall_mem_append.mpr ⟨?_, ?_⟩⟩
      · split at hb
        · obtain rfl := List.mem_singleton.mp hb
          exact ⟨by simp, by rw [hlength]; omega, hpath', hms.2.1.2⟩
        · cases hb
      · exact regular_nestedBlocks (path ++ [key]) ms hms.2.1.2 hpath' (by rw [hlength]; omega)
      · exact regular_nestedBlocks path rest hms.2.2 hpath (by omega)
  | path, (key, .list ts) :: rest, hms, hpath, hlimit => by
      rw [Tree.RegularMembers, Tree.Regular] at hms
      rw [Tree.heightMembers, Tree.height] at hlimit
      obtain ⟨hpath', hlength⟩ := simplePath_concat hpath hms.1
      rw [nestedBlocks]
      refine List.forall_mem_append.mpr ⟨fun b hb => ?_, ?_⟩
      · split at hb
        · exact regular_repeatedBlocks (path ++ [key]) ts hms.2.1.2 (by simp) hpath'
            (by rw [hlength]; omega) b hb
        · cases hb
      · exact regular_nestedBlocks path rest hms.2.2 hpath (by omega)
  | path, (_, .text _) :: rest, hms, hpath, hlimit
  | path, (_, .flag _) :: rest, hms, hpath, hlimit
  | path, (_, .natural _) :: rest, hms, hpath, hlimit => by
      rw [Tree.RegularMembers] at hms
      rw [Tree.heightMembers] at hlimit
      simp only [nestedBlocks]
      exact regular_nestedBlocks path rest hms.2.2 hpath (by omega)

theorem regular_repeatedBlocks : ∀ (path : List String) (ts : List Tree),
    Tree.RegularItems ts → path ≠ [] → (∀ s ∈ path, isSimpleName s = true) →
    path.length + Tree.heightItems ts ≤ limit + 1 → ∀ b ∈ repeatedBlocks path ts, b.Regular
  | path, [], _, _, _, _ => by rw [repeatedBlocks]; exact nofun
  | path, .record ms :: ts, hts, hne, hpath, hlimit => by
      rw [Tree.RegularItems, Tree.Regular] at hts
      rw [Tree.heightItems, Tree.height] at hlimit
      rw [repeatedBlocks, List.cons_append]
      refine List.forall_mem_cons.mpr ⟨⟨hne, by simp only; omega, hpath, hts.1.2⟩,
        List.forall_mem_append.mpr ⟨?_, ?_⟩⟩
      · exact regular_nestedBlocks path ms hts.1.2 hpath (by omega)
      · exact regular_repeatedBlocks path ts hts.2 hne hpath (by omega)
  | path, .text _ :: ts, hts, hne, hpath, hlimit
  | path, .flag _ :: ts, hts, hne, hpath, hlimit
  | path, .natural _ :: ts, hts, hne, hpath, hlimit
  | path, .list _ :: ts, hts, hne, hpath, hlimit => by
      rw [Tree.RegularItems] at hts
      rw [Tree.heightItems] at hlimit
      simp only [repeatedBlocks]
      exact regular_repeatedBlocks path ts hts.2 hne hpath (by omega)
end

/-! ## 行 -/

section Lines

variable {key : String} {t : Tree} {ms : List (String × Tree)} {b : Block} {cs : List Char}
  {ls : List Line}

theorem key_name (h : isSimpleName key = true) (hrest : EndsKey rest) :
    Toml.key (key.toList ++ rest) = some (⟨key, []⟩, skipBlank rest) := by
  have hkey := key_path (List.cons_ne_nil key []) (Nat.le_add_left 1 78)
    (List.forall_mem_singleton.mpr h) hrest
  rwa [List.map_singleton, joined_cons, List.flatMap_nil, List.append_nil] at hkey

theorem line_plain (hkey : isSimpleName key = true) (h : hasHeading t = false) (ht : t.Regular) :
    line (key.toList ++ [' ', '=', ' '] ++ inlineValue t ++ ['\n'] ++ rest) =
      some (.assignment ⟨⟨key, []⟩, nodeOf t⟩, rest) := by
  have hends (tail : List Char) : EndsKey (' ' :: '=' :: tail) :=
    ⟨by rintro c ⟨⟩; decide, fun _ => by exact fun h => nomatch h⟩
  have hread : Toml.key (key.toList ++ [' ', '=', ' '] ++ inlineValue t ++ ['\n'] ++ rest) =
      some (⟨key, []⟩, '=' :: ' ' :: (inlineValue t ++ '\n' :: rest)) := by
    simp only [List.append_assoc, List.cons_append, List.nil_append]
    exact key_name hkey (hends _)
  have hvalue : value limit (skipBlank (' ' :: (inlineValue t ++ '\n' :: rest))) =
      some (nodeOf t, '\n' :: rest) :=
    (congrArg (value limit) (skipBlank_plain h)).trans
      (value_plain h ht ⟨'\n', rest, rfl, .inl rfl⟩)
  obtain ⟨c, cs, hs, hc⟩ := exists_name_eq_cons hkey
  unfold line
  split
  case h_1 heq =>
    rw [hs] at heq
    exact absurd (List.cons.inj heq).1 (ne_of_isBare hc rfl)
  case h_2 heq =>
    rw [hs] at heq
    exact absurd (List.cons.inj heq).1 (ne_of_isBare hc rfl)
  case h_3 =>
    simp only [hread, hvalue, Option.bind_eq_bind, Option.bind_some]
    rfl

theorem exists_joined_eq_cons (hb : b.Regular) (tail : List Char) :
    ∃ c cs, joined ['.'] (b.path.map String.toList) ++ tail = c :: cs ∧ isBare c = true := by
  obtain ⟨first, names, hpath⟩ := List.exists_cons_of_ne_nil hb.ne_nil
  obtain ⟨c, cs, hfirst, hc⟩ :=
    exists_name_eq_cons (hb.isSimpleName first (hpath ▸ List.mem_cons_self))
  exact ⟨c, _, by rw [hpath, List.map_cons, joined_cons, hfirst]; rfl, hc⟩

theorem line_heading (hb : b.Regular) : line (b.headline ++ '\n' :: rest) =
    some (.heading ⟨keyOf b.path, b.repeated⟩, rest) := by
  have hends (tail : List Char) : EndsKey (']' :: tail) :=
    ⟨by rintro c ⟨⟩; decide, fun _ => by exact fun h => nomatch h⟩
  have hread (tail : List Char) := key_path hb.ne_nil hb.length_le hb.isSimpleName (hends tail)
  have hskip (tail : List Char) : skipBlank (']' :: tail) = ']' :: tail :=
    skipBlank_cons (by decide) tail
  rw [Block.headline, List.append_assoc, List.append_assoc]
  cases hrepeated : b.repeated with
  | true =>
      change line ('[' :: '[' :: (joined ['.'] (b.path.map String.toList) ++
        ']' :: ']' :: '\n' :: rest)) = _
      rw [line]
      simp only [hread, hskip, Option.bind_eq_bind, Option.bind_some]
      rfl
  | false =>
      obtain ⟨c, cs, hjoined, hc⟩ := exists_joined_eq_cons hb (']' :: '\n' :: rest)
      have hkey := hread ('\n' :: rest)
      change line ('[' :: (joined ['.'] (b.path.map String.toList) ++ ']' :: '\n' :: rest)) = _
      rw [hjoined] at hkey ⊢
      rw [line]
      · simp only [hkey, hskip, Option.bind_eq_bind, Option.bind_some]
        rfl
      · exact fun _ heq => absurd (List.cons.inj heq).1 (ne_of_isBare hc rfl)

/-- 行を一つ読み、残りの行を読む。行の前の空行は読み飛ばす。 -/
theorem lines_cons {l : Line} {start : List Char} (hstart : skipLines false cs = start)
    (hline : line start = some (l, rest)) (hlength : rest.length < cs.length)
    (hrest : lines rest = some ls) : lines cs = some (l :: ls) := by
  rw [lines, hstart]
  split
  · cases hline
  · rw [hline]
    simp only [hlength, hrest, ↓reduceIte, Option.map_some]

theorem skipLines_name (h : isSimpleName key = true) :
    skipLines false (key.toList ++ rest) = key.toList ++ rest := by
  obtain ⟨c, cs, hs, hc⟩ := exists_name_eq_cons h
  rw [hs, List.cons_append, skipLines_cons (isBlank_of_isBare hc)]
  simp [ne_of_isBare hc (d := '\n') rfl, ne_of_isBare hc (d := '\r') rfl,
    ne_of_isBare hc (d := '#') rfl]

theorem lines_plainLines (hms : Tree.RegularMembers ms) (hrest : lines rest = some ls) :
    lines (plainLines ms ++ rest) = some ((assignments ms).map .assignment ++ ls) := by
  induction ms with
  | nil => exact hrest
  | cons m ms ih =>
      obtain ⟨key, t⟩ := m
      rw [Tree.RegularMembers] at hms
      have hms' := ih hms.2.2
      rw [assignments_cons]
      rw [plainLines] at hms' ⊢
      cases hheading : hasHeading t with
      | true => rwa [List.filter_cons_of_neg (by simp [hheading])]
      | false =>
          rw [List.filter_cons_of_pos (by simp [hheading]), List.flatMap_cons, List.append_assoc]
          refine lines_cons ?_ (line_plain hms.1 hheading hms.2.1) ?_ hms'
          · simp only [List.append_assoc]
            exact skipLines_name hms.1
          · simp only [List.length_append, List.length_cons]
            omega

theorem skipLines_headline (b : Block) (cs : List Char) :
    skipLines false (b.headline ++ cs) = b.headline ++ cs := by
  rw [Block.headline]
  cases b.repeated <;> exact skipLines_cons (by decide) (by decide) _

/-- 節を読む。前の空行はなくてもよい。 -/
theorem lines_text (hb : b.Regular) (hrest : lines rest = some ls) :
    lines (b.text ++ rest) = some (b.lines ++ ls) ∧
      lines (b.text.drop 1 ++ rest) = some (b.lines ++ ls) := by
  have hbody := lines_plainLines hb.members hrest
  have hdrop : b.text.drop 1 ++ rest = b.headline ++ '\n' :: (plainLines b.members ++ rest) :=
    List.append_assoc _ _ _
  have htext : b.text ++ rest = '\n' :: (b.text.drop 1 ++ rest) := rfl
  have hstart := skipLines_headline b ('\n' :: (plainLines b.members ++ rest))
  have hlength : (plainLines b.members ++ rest).length <
      (b.headline ++ '\n' :: (plainLines b.members ++ rest)).length := by
    simp only [List.length_append, List.length_cons]
    omega
  rw [htext, hdrop]
  exact ⟨lines_cons hstart (line_heading hb) (Nat.lt_succ_of_lt hlength) hbody,
    lines_cons hstart (line_heading hb) hlength hbody⟩

theorem lines_blocks {bs : List Block} (hbs : ∀ b ∈ bs, b.Regular) :
    lines (bs.flatMap Block.text) = some (bs.flatMap Block.lines) ∧
      lines ((bs.flatMap Block.text).drop 1) = some (bs.flatMap Block.lines) := by
  induction bs with
  | nil =>
      have hnil : lines [] = some [] := by rw [lines]; rfl
      exact ⟨hnil, hnil⟩
  | cons b bs ih =>
      obtain ⟨hb, hbs⟩ := List.forall_mem_cons.mp hbs
      exact lines_text hb (ih hbs).1

theorem lines_write (hms : Tree.RegularMembers ms) (hlimit : Tree.heightMembers ms ≤ limit) :
    lines (write (.record ms)).toList =
      some ((assignments ms).map .assignment ++ (nestedBlocks [] ms).flatMap Block.lines) := by
  obtain ⟨hblocks, hdrop⟩ := lines_blocks (regular_nestedBlocks [] ms hms nofun
    (by rwa [List.length_nil, Nat.zero_add]))
  rw [write, nested_eq_flatMap]
  split
  case h_2 =>
    rw [String.toList_ofList]
    exact lines_plainLines hms hblocks
  case h_1 hplain =>
    -- 見出しの前の行がなければ、最初の見出しの前の空行を書かない。
    have hlines := lines_plainLines hms hdrop
    rw [hplain, List.nil_append] at hlines
    rw [String.toList_ofList, hlines]

end Lines

end SpecLineage.Toml
