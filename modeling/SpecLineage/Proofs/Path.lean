import Mathlib.Data.List.Induction
import SpecLineage.Path

/-!
# 経路の正規の形

区切り直せる名だけからなる経路は、文字列に書いても、読み戻せば元の経路になる。正規の形にするときに名を読み進める操作は、
先に正規の形にしておいても結果を変えない。だから正規の形は、もう一度正規の形にしても変わらず、経路をつなぐ前に
それぞれを正規の形にしておいてもよい。正規の形の経路は、`..` が相対経路の頭にしか現れない経路である。
-/

namespace SpecLineage.Path

/-! ## 文字列としての経路 -/

/-- 名がどれも、斜線を含まない、区切り直せば現れる名である。 -/
def Clean (p : Path) : Prop := ∀ name ∈ p.names, isFiller name.toList = false ∧ '/' ∉ name.toList

theorem splitSlash_eq_splitOn (cs : List Char) : splitSlash cs = cs.splitOn '/' := by
  induction cs with
  | nil => rfl
  | cons c cs ih =>
      rw [splitSlash, List.splitOn_cons_eq_if_modifyHead, ih]
      by_cases hc : c = '/'
      · simp [hc]
      · rw [if_neg hc, if_neg (by simpa using hc)]
        cases hsplit : cs.splitOn '/' with
        | nil => exact absurd hsplit (List.splitOn_ne_nil '/' cs)
        | cons name names => rfl

theorem notMem_of_mem_splitSlash {cs name : List Char} (h : name ∈ splitSlash cs) : '/' ∉ name := by
  induction cs generalizing name with
  | nil =>
      rw [List.mem_singleton.mp h]
      exact List.not_mem_nil
  | cons c cs ih =>
      rw [splitSlash] at h
      split at h
      · rcases List.mem_cons.mp h with rfl | h
        · exact List.not_mem_nil
        · exact ih h
      · rename_i hc
        cases hsplit : splitSlash cs with
        | nil =>
            rw [hsplit] at h
            rw [List.mem_singleton.mp h, List.mem_singleton]
            exact Ne.symm hc
        | cons first rest =>
            rw [hsplit] at h ih
            rcases List.mem_cons.mp h with rfl | h
            · rw [List.mem_cons, not_or]
              exact ⟨Ne.symm hc, ih List.mem_cons_self⟩
            · exact ih (List.mem_cons_of_mem _ h)

theorem ext_names {p q : Path} (hrooted : p.rooted = q.rooted) (hnames : p.names = q.names) :
    p = q := by
  cases p
  cases q
  exact congrArg₂ Path.mk hrooted hnames

theorem clean_ofString (s : String) : (ofString s).Clean := by
  intro name hname
  obtain ⟨cs, hcs, rfl⟩ := List.mem_map.mp hname
  obtain ⟨hsplit, hfiller⟩ := List.mem_filter.mp hcs
  rw [String.toList_ofList]
  exact ⟨by simpa using hfiller, notMem_of_mem_splitSlash hsplit⟩

theorem clean_parent {p : Path} (h : p.Clean) : p.parent.Clean := by
  unfold parent
  split
  · exact fun name hname => nomatch hname
  · exact fun name hname => h name (List.dropLast_subset _ hname)

theorem clean_join {p q : Path} (hp : p.Clean) (hq : q.Clean) : (p.join q).Clean := by
  unfold join
  split
  · exact hq
  · intro name hname
    exact (List.mem_append.mp hname).elim (hp name) (hq name)

/-- 斜線でつないだ名は、区切り直せば元の名になる。 -/
theorem names_splitSlash {names : List String}
    (h : ∀ name ∈ names, isFiller name.toList = false ∧ '/' ∉ name.toList) :
    ((splitSlash ("/".intercalate names).toList).filter (!isFiller ·)).map String.ofList = names := by
  cases names with
  | nil => rfl
  | cons name names =>
      have hslash : ∀ cs ∈ (name :: names).map String.toList, '/' ∉ cs :=
        List.forall_mem_map.mpr fun n hn => (h n hn).2
      have hfiller : ∀ cs ∈ (name :: names).map String.toList, (!isFiller cs) = true :=
        List.forall_mem_map.mpr fun n hn => by rw [(h n hn).1]; rfl
      have hsep : "/".toList = ['/'] := rfl
      rw [String.toList_intercalate, hsep, splitSlash_eq_splitOn,
        List.splitOn_intercalate '/' hslash (List.cons_ne_nil _ _), List.filter_eq_self.mpr hfiller,
        List.map_map]
      exact (List.map_congr_left fun n _ => String.ofList_toList).trans (List.map_id' _)

theorem head?_intercalate_ne {names : List String}
    (h : ∀ name ∈ names, isFiller name.toList = false ∧ '/' ∉ name.toList) :
    ("/".intercalate names).toList.head? ≠ some '/' := by
  cases names with
  | nil => simp
  | cons name names =>
      obtain ⟨hfiller, hslash⟩ := h name List.mem_cons_self
      intro hhead
      cases hname : name.toList with
      | nil => simp [hname, isFiller] at hfiller
      | cons c cs =>
          have hc : c = '/' := by
            cases names with
            | nil => simpa [hname] using hhead
            | cons name' names => simpa [hname] using hhead
          exact hslash (hname ▸ hc ▸ List.mem_cons_self)

theorem ofString_toString {p : Path} (h : p.Clean) : ofString p.toString = p := by
  obtain ⟨rooted, names⟩ := p
  have hnames := names_splitSlash h
  cases rooted with
  | false =>
      have hstring : toString ⟨false, names⟩ = "/".intercalate names := String.empty_append
      rw [ofString, hstring, hnames, beq_false_of_ne (head?_intercalate_ne h)]
  | true =>
      have hstring : (toString ⟨true, names⟩).toList = '/' :: ("/".intercalate names).toList := by
        simp [toString]
      rw [ofString, hstring, splitSlash, if_pos rfl]
      -- 根の斜線の前には、名の列に現れない空の名ができる。
      have hempty : (!isFiller []) = false := rfl
      rw [List.filter_cons, hempty, if_neg Bool.false_ne_true]
      exact congrArg (Path.mk true) hnames

theorem rooted_ofString_toString {p : Path} (h : p.rooted = true) :
    (ofString p.toString).rooted = true := by
  simp [ofString, toString, h]

theorem exists_toString_concat (before : List String) (name : String) :
    ∃ front, (toString ⟨true, before ++ [name]⟩).toList = front ++ '/' :: name.toList := by
  have hjoined : ∃ front,
      '/' :: ("/".intercalate (before ++ [name])).toList = front ++ '/' :: name.toList := by
    induction before with
    | nil => exact ⟨[], by simp⟩
    | cons first before ih =>
        obtain ⟨front, hfront⟩ := ih
        obtain ⟨second, rest, hrest⟩ := List.exists_cons_of_ne_nil (l := before ++ [name]) (by simp)
        rw [hrest] at hfront
        rw [List.cons_append, hrest]
        have hfirst : ("/".intercalate (first :: second :: rest)).toList =
            first.toList ++ '/' :: ("/".intercalate (second :: rest)).toList := by simp
        exact ⟨'/' :: (first.toList ++ front), by rw [hfirst, hfront]; simp⟩
  simpa [toString] using hjoined

theorem getLast?_ofString_toString (before : List String) {name : String}
    (hfiller : isFiller name.toList = false) (hslash : '/' ∉ name.toList) :
    (ofString (toString ⟨true, before ++ [name]⟩)).names.getLast? = some name := by
  obtain ⟨front, hfront⟩ := exists_toString_concat before name
  have hlast : splitSlash name.toList = [name.toList] := by
    have hsingle : (['/'].intercalate [name.toList]).splitOn '/' = [name.toList] :=
      List.splitOn_intercalate '/' (by simpa using hslash) (List.cons_ne_nil _ _)
    rw [splitSlash_eq_splitOn]
    simpa using hsingle
  have hsplit : splitSlash (front ++ '/' :: name.toList) = splitSlash front ++ [name.toList] := by
    rw [← hlast, splitSlash_eq_splitOn, splitSlash_eq_splitOn, splitSlash_eq_splitOn]
    exact List.splitOnP_append_cons front name.toList (beq_self_eq_true _)
  simp [ofString, hfront, hsplit, hfiller]

/-! ## 名を読み進める -/

theorem fold_of_ne {rooted : Bool} {done : List String} {name : String} (h : name ≠ "..") :
    fold rooted done name = name :: done := if_neg h

theorem fold_up {rooted : Bool} {last : String} {before : List String} (h : last ≠ "..") :
    fold rooted (last :: before) ".." = before := by
  simp [fold, h]

theorem fold_up_kept (rooted : Bool) (before : List String) :
    fold rooted (".." :: before) ".." = ".." :: ".." :: before := by
  simp [fold]

theorem foldl_fold_concat (rooted : Bool) (names : List String) (name : String) (done : List String) :
    (names ++ [name]).foldl (fold rooted) done = fold rooted (names.foldl (fold rooted) done) name :=
  List.foldl_append ..

/-- 相対経路として先にたたんでおいても、どこから読み進めても、同じ所に着く。 -/
theorem foldl_fold_reverse (rooted : Bool) (names done : List String) :
    ((names.foldl (fold false) []).reverse).foldl (fold rooted) done =
      names.foldl (fold rooted) done := by
  induction names using List.reverseRecOn with
  | nil => rfl
  | append_singleton names name ih =>
      rw [foldl_fold_concat, foldl_fold_concat, ← ih]
      by_cases hname : name = ".."
      · subst hname
        cases hfolded : names.foldl (fold false) [] with
        | nil => rfl
        | cons last before =>
            by_cases hlast : last = ".."
            · subst hlast
              rw [fold_up_kept, List.reverse_cons, foldl_fold_concat]
            · -- 取り消す名は、ここから読み進めても直前の名である。
              rw [fold_up hlast, List.reverse_cons, foldl_fold_concat, fold_of_ne hlast, fold_up hlast]
      · rw [fold_of_ne hname, List.reverse_cons, foldl_fold_concat]

theorem foldl_fold_of_notMem {rooted : Bool} {names : List String} (h : ".." ∉ names)
    (done : List String) : names.foldl (fold rooted) done = names.reverse ++ done := by
  induction names generalizing done with
  | nil => rfl
  | cons name names ih =>
      rw [List.mem_cons, not_or] at h
      rw [List.foldl_cons, fold_of_ne (Ne.symm h.1), ih h.2, List.reverse_cons, List.append_assoc]
      rfl

theorem notMem_foldl_rooted (names : List String) : ".." ∉ names.foldl (fold true) [] := by
  induction names using List.reverseRecOn with
  | nil => exact List.not_mem_nil
  | append_singleton names name ih =>
      rw [foldl_fold_concat]
      by_cases hname : name = ".."
      · subst hname
        cases hfolded : names.foldl (fold true) [] with
        | nil => exact List.not_mem_nil
        | cons last before =>
            rw [hfolded, List.mem_cons, not_or] at ih
            rw [fold_up (Ne.symm ih.1)]
            exact ih.2
      · rw [fold_of_ne hname, List.mem_cons, not_or]
        exact ⟨Ne.symm hname, ih⟩

theorem mem_of_mem_foldl {rooted : Bool} {names done : List String} {name : String}
    (h : name ∈ names.foldl (fold rooted) done) : name ∈ done ∨ name ∈ names := by
  induction names generalizing done with
  | nil => exact Or.inl h
  | cons first names ih =>
      have hstep : ∀ n ∈ fold rooted done first, n ∈ done ∨ n = first := by
        intro n hn
        unfold fold at hn
        grind
      rcases ih h with hdone | hnames
      · rcases hstep name hdone with hdone | rfl
        · exact Or.inl hdone
        · exact Or.inr List.mem_cons_self
      · exact Or.inr (List.mem_cons_of_mem _ hnames)

/-- 相対経路を読み進めれば、`..` は頭にだけ残る。 -/
theorem exists_foldl_fold (names : List String) : ∃ ups rest,
    names.foldl (fold false) [] = rest ++ List.replicate ups ".." ∧ ".." ∉ rest := by
  induction names using List.reverseRecOn with
  | nil => exact ⟨0, [], rfl, List.not_mem_nil⟩
  | append_singleton names name ih =>
      obtain ⟨ups, rest, hfolded, hrest⟩ := ih
      rw [foldl_fold_concat, hfolded]
      by_cases hname : name = ".."
      · subst hname
        cases rest with
        | nil =>
            refine ⟨ups + 1, [], ?_, List.not_mem_nil⟩
            cases ups with
            | zero => rfl
            | succ ups => exact fold_up_kept false (List.replicate ups "..")
        | cons last before =>
            rw [List.mem_cons, not_or] at hrest
            exact ⟨ups, before, fold_up (Ne.symm hrest.1), hrest.2⟩
      · refine ⟨ups, name :: rest, fold_of_ne hname, ?_⟩
        rw [List.mem_cons, not_or]
        exact ⟨Ne.symm hname, hrest⟩

/-- 相対経路に `..` が残れば、その頭にも `..` が残る。 -/
theorem getLast?_foldl_fold (names : List String) (h : ".." ∈ names.foldl (fold false) []) :
    (names.foldl (fold false) []).getLast? = some ".." := by
  obtain ⟨ups, rest, hfolded, hrest⟩ := exists_foldl_fold names
  rw [hfolded, List.mem_append] at h
  have hups : ups ≠ 0 := (List.mem_replicate.mp (h.resolve_left hrest)).1
  rw [hfolded, List.getLast?_append, List.getLast?_replicate, if_neg hups]
  rfl

theorem foldl_fold_replicate (ups : Nat) :
    (List.replicate ups "..").foldl (fold false) [] = List.replicate ups ".." := by
  induction ups with
  | zero => rfl
  | succ ups ih =>
      rw [List.replicate_succ', foldl_fold_concat, ih, ← List.replicate_succ']
      cases ups with
      | zero => rfl
      | succ ups => exact fold_up_kept false (List.replicate ups "..")

/-! ## 正規の形 -/

theorem clean_normal {p : Path} (h : p.Clean) : p.normal.Clean := fun name hname =>
  h name ((mem_of_mem_foldl (List.mem_reverse.mp hname)).resolve_left List.not_mem_nil)

theorem notMem_normal_of_rooted {p : Path} (h : p.rooted = true) : ".." ∉ p.normal.names := by
  rw [normal, List.mem_reverse, h]
  exact notMem_foldl_rooted p.names

theorem normal_of_notMem {p : Path} (h : ".." ∉ p.names) : p.normal = p := by
  rw [normal, foldl_fold_of_notMem h, List.append_nil, List.reverse_reverse]

@[simp] theorem normal_normal (p : Path) : p.normal.normal = p.normal := by
  cases hp : p.rooted with
  | true => exact normal_of_notMem (notMem_normal_of_rooted hp)
  | false =>
      have hnames : (p.names.foldl (fold false) []).reverse.foldl (fold false) [] =
          p.names.foldl (fold false) [] := foldl_fold_reverse false p.names []
      simp only [normal, hp, hnames]

/-- `..` が頭に連なるほかには現れず、根からの経路にはまったく現れない。 -/
def Ascending (p : Path) : Prop :=
  ∃ ups rest, p.names = List.replicate ups ".." ++ rest ∧ ".." ∉ rest ∧ (p.rooted = true → ups = 0)

theorem ascending_normal (p : Path) : p.normal.Ascending := by
  cases hp : p.rooted with
  | true =>
      exact ⟨0, p.normal.names, rfl, notMem_normal_of_rooted hp, fun _ => rfl⟩
  | false =>
      obtain ⟨ups, rest, hfolded, hrest⟩ := exists_foldl_fold p.names
      refine ⟨ups, rest.reverse, ?_, ?_, fun h => ?_⟩
      · rw [normal, hp, hfolded, List.reverse_append, List.reverse_replicate]
      · rwa [List.mem_reverse]
      · exact absurd (hp.symm.trans h) Bool.false_ne_true

theorem normal_of_ascending {p : Path} (h : p.Ascending) : p.normal = p := by
  obtain ⟨ups, rest, hnames, hrest, hrooted⟩ := h
  cases hp : p.rooted with
  | true =>
      rw [hrooted hp, List.replicate_zero, List.nil_append] at hnames
      exact normal_of_notMem (hnames ▸ hrest)
  | false =>
      refine ext_names rfl ?_
      rw [normal, hp, hnames, List.foldl_append, foldl_fold_replicate, foldl_fold_of_notMem hrest,
        List.reverse_append, List.reverse_replicate, List.reverse_reverse]

theorem join_of_relative (p : Path) {q : Path} (h : q.rooted = false) :
    p.join q = ⟨p.rooted, p.names ++ q.names⟩ := by
  simp [join, h]

theorem join_assoc (p q r : Path) : (p.join q).join r = p.join (q.join r) := by
  cases hq : q.rooted <;> cases hr : r.rooted <;> simp [join, hq, hr, List.append_assoc]

theorem parent_join (p : Path) {q : Path} (hq : q.rooted = false) (hne : q.names ≠ []) :
    (p.join q).parent = p.join q.parent := by
  simp only [join, parent, hq, List.isEmpty_iff, List.append_eq_nil_iff, hne, and_false,
    Bool.false_eq_true, ↓reduceIte, List.dropLast_append_of_ne_nil hne]

/-- 親へ戻らない相対経路の正規の形は、つなぐ先によらない。 -/
theorem normal_join_of_notMem {p q : Path} (hp : ".." ∉ p.names) (hq : q.rooted = false)
    (hnormal : ".." ∉ q.normal.names) : (p.join q).normal = p.join q.normal := by
  rw [join_of_relative p hq, join_of_relative p (q := q.normal) hq]
  have hnames : q.normal.names = (q.names.foldl (fold false) []).reverse := by rw [normal, hq]
  have hfold : (p.names ++ q.names).foldl (fold p.rooted) [] =
      q.normal.names.reverse ++ p.names.reverse := by
    rw [List.foldl_append, foldl_fold_of_notMem hp, List.append_nil, ← foldl_fold_reverse, ← hnames,
      foldl_fold_of_notMem hnormal]
  rw [normal, hfold, List.reverse_append, List.reverse_reverse, List.reverse_reverse]

theorem notMem_normal_of_head? {p : Path} (hp : p.rooted = false)
    (h : p.normal.names.head? ≠ some "..") : ".." ∉ p.normal.names := by
  intro hmem
  rw [normal, hp, List.mem_reverse] at hmem
  rw [normal, hp, List.head?_reverse] at h
  exact h (getLast?_foldl_fold p.names hmem)

/-- つなぐ前に、それぞれを正規の形にしておいてもよい。 -/
theorem normal_join (p q : Path) : (p.normal.join q.normal).normal = (p.join q).normal := by
  cases hq : q.rooted with
  | true =>
      have hp : p.normal.join q.normal = q.normal := if_pos hq
      rw [hp, normal_normal]
      exact congrArg normal (if_pos hq).symm
  | false =>
      rw [join_of_relative p.normal (q := q.normal) hq, join_of_relative p hq]
      have hbase : p.normal.names.foldl (fold p.rooted) [] = p.names.foldl (fold p.rooted) [] := by
        have hnames := congrArg (fun x : Path => x.names.reverse) p.normal_normal
        simpa [normal] using hnames
      have hrest : q.normal.names = (q.names.foldl (fold false) []).reverse := by rw [normal, hq]
      simp only [normal, List.foldl_append] at hbase hrest ⊢
      rw [hbase, hrest, foldl_fold_reverse]

theorem names_normal_concat {p : Path} {before : List String} {name : String}
    (hnames : p.names = before ++ [name]) (hname : name ≠ "..") :
    p.normal.names = (before.foldl (fold p.rooted) []).reverse ++ [name] := by
  rw [normal, hnames, foldl_fold_concat, fold_of_ne hname, List.reverse_cons]

theorem parent_normal {p : Path} {before : List String} {name : String}
    (hnames : p.names = before ++ [name]) (hname : name ≠ "..") :
    p.normal.parent = p.parent.normal := by
  have hnormal := names_normal_concat hnames hname
  have hparent : ∀ {q : Path} {init : List String}, q.names = init ++ [name] →
      q.parent = ⟨q.rooted, init⟩ := by
    intro q init h
    simp [parent, h]
  rw [hparent hnormal, hparent hnames]
  rfl

theorem extension?_congr {p q : Path} (h : p.names.getLast? = q.names.getLast?) :
    p.extension? = q.extension? := by
  rw [extension?, extension?, h]

theorem exists_names_of_extension? {p : Path} {e : String} (h : p.extension? = some e) :
    ∃ before name, p.names = before ++ [name] ∧ name ≠ ".." := by
  rw [extension?] at h
  cases hlast : p.names.getLast? with
  | none => simp [hlast] at h
  | some name =>
      obtain ⟨before, hnames⟩ := List.getLast?_eq_some_iff.mp hlast
      refine ⟨before, name, hnames, ?_⟩
      rintro rfl
      simp [hlast] at h

end SpecLineage.Path
