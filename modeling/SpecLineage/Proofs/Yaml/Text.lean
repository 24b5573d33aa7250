import Mathlib.Data.List.TakeWhile
import SpecLineage.Proofs.Text.Hex
import SpecLineage.Yaml.Block
import SpecLineage.Yaml.Flow
import SpecLineage.Yaml.Write

/-!
# 書いた YAML の文字列

四つの書きかたのそれぞれで、書いた文字列は元の文字列に読める。書きかたは文字列の中身で選ばれるので、選ばれた
書きかたで読みを変えるもの、たとえば行の終わりの空白や `#` や終わりの改行が、そこに現れないことを使う。
-/

namespace SpecLineage.Yaml

/-! ## 値の後 -/

/-- 空きでも注釈でもない、字句の頭になる文字。 -/
def isVisible (c : Char) : Bool := !isBlank c && !isBreak c && c != '#' && c != '\ufeff'

/-- 値を書いた行の後に、幅 `k` の字下げで次の字句が始まるか、文書が終わる。 -/
def Resumes (k : Nat) (rest : List Char) : Prop :=
  k = 0 ∧ rest = [] ∨ ∃ c cs, rest = c :: cs ∧ isVisible c = true

theorem Resumes.zero {k : Nat} {rest : List Char} (h : Resumes k rest) : Resumes 0 rest :=
  h.imp_left fun h => ⟨rfl, h.2⟩

theorem isVisible_iff {c : Char} : isVisible c = true ↔
    isBlank c = false ∧ isBreak c = false ∧ c ≠ '#' ∧ c ≠ '\ufeff' := by
  simp only [isVisible, Bool.and_eq_true, Bool.not_eq_true', bne_iff_ne, and_assoc]

theorem isBlank_eq_false {c : Char} (hspace : c ≠ ' ') (htab : c ≠ '\t') : isBlank c = false := by
  simp [isBlank, hspace, htab]

theorem ne_tab_of_isPrintable {c : Char} (h : isPrintable c = true) : c ≠ '\t' := by
  rintro rfl
  exact absurd h (by decide)

theorem isPrintable_of_needsEscape {cs : List Char} (h : needsEscape cs = false) :
    ∀ c ∈ cs, isPrintable c = true := by
  rw [needsEscape, Bool.or_eq_false_iff, List.any_eq_false] at h
  simpa using h.1

theorem needsEscape_of_allowsLiteral {cs : List Char} (h : allowsLiteral cs = true) :
    needsEscape cs = false := by
  simp only [allowsLiteral, Bool.and_eq_true, Bool.not_eq_true'] at h
  exact h.1.2

theorem forall_mem_getLast?_of_cons {p : Char → Prop} {c : Char} {cs : List Char}
    (h : ∀ d ∈ (c :: cs).getLast?, p d) : ∀ d ∈ cs.getLast?, p d := by
  cases cs with
  | nil => rintro d ⟨⟩
  | cons d ds => rwa [List.getLast?_cons_cons] at h

/-! ## 行の中の空き -/

/-- 行の中で、空白 `g` を読んだ空き。 -/
def inLine : List Char → Gap
  | [] => .none
  | g => .blanks g

@[simp] theorem inLine_nil : inLine [] = .none := rfl

@[simp] theorem text_inLine (g : List Char) : (inLine g).text = g := by cases g <;> rfl

@[simp] theorem isShort_inLine (g : List Char) (m : Nat) : (inLine g).isShort m = false := by
  cases g <;> rfl

theorem extend_inLine (g : List Char) {c : Char} (h : isBlank c = true) :
    (inLine g).extend c = inLine (g ++ [c]) := by
  cases g with
  | nil => exact if_pos h
  | cons d ds => exact if_pos h

/-! ## 引用符のない文字列 -/

theorem isSpaced_append {cs : List Char} (h : cs ≠ []) (tail : List Char) :
    isSpaced (cs ++ tail) = isSpaced cs := by
  obtain ⟨c, cs, rfl⟩ := List.exists_cons_of_ne_nil h
  rfl

theorem hasIndicator_cons {spaced : Bool} {c : Char} {cs : List Char}
    (h : hasIndicator false spaced (c :: cs) = false) :
    (c = ':' → isSpaced cs = false) ∧ (spaced = true → c ≠ '#') ∧
      hasIndicator false (isBlank c || isBreak c) cs = false := by
  simp only [hasIndicator, Bool.false_and, Bool.false_or, Bool.or_eq_false_iff,
    Bool.and_eq_false_iff, beq_eq_false_iff_ne] at h
  obtain ⟨⟨hcolon, hhash⟩, hrest⟩ := h
  refine ⟨fun hc => hcolon.resolve_left (absurd hc), fun hs => ?_, hrest⟩
  exact hhash.resolve_left (by simp [hs])

theorem endsPlain_append {c : Char} {cs : List Char} (hcolon : c = ':' → isSpaced cs = false)
    (tail : List Char) : endsPlain false c (cs ++ tail) = false := by
  by_cases hc : c = ':'
  · have hspaced := hcolon hc
    have hne : cs ≠ [] := by rintro rfl; exact absurd hspaced (by decide)
    rw [endsPlain, isSpaced_append hne, hspaced, Bool.and_false, Bool.false_and, Bool.or_self]
  · simp [endsPlain, hc]

/-- 印と紛れない文字の並びは、その終わりまで引用符のない文字列に読む。 -/
theorem plain_append (m : Nat) (tail : List Char) : ∀ {cs g : List Char},
    (∀ c ∈ cs, c ≠ '\t' ∧ isBreak c = false) → hasIndicator false (!g.isEmpty) cs = false →
    (∀ c ∈ cs.getLast?, c ≠ ' ') → (cs = [] → g = []) →
    plain false m (inLine g) (cs ++ tail) =
      (plain false m .none tail).map fun p => { p with text := g ++ cs ++ p.text }
  | [], g, _, _, _, hg => by
      rw [hg rfl]
      exact (congrFun Option.map_id _).symm
  | c :: cs, g, hcs, hindicator, hlast, _ => by
      obtain ⟨hcolon, hhash, hrest⟩ := hasIndicator_cons hindicator
      obtain ⟨⟨htab, hbreak⟩, hcs'⟩ := List.forall_mem_cons.mp hcs
      have hlast' := forall_mem_getLast?_of_cons hlast
      rw [List.cons_append, plain]
      by_cases hspace : c = ' '
      · -- 空白は空きに加わり、後の文字と一緒に読まれる。
        have hne : cs ≠ [] := by rintro rfl; exact hlast c rfl hspace
        subst hspace
        rw [if_pos (by decide), if_neg (by simp), extend_inLine g (by decide),
          plain_append m tail hcs' (by cases g <;> exact hrest) hlast' (absurd · hne)]
        simp only [List.append_assoc, List.singleton_append]
      · have hblank := isBlank_eq_false hspace htab
        have hends : (inLine g).endsPlain false m (c :: (cs ++ tail)) = false := by
          cases g with
          | nil => rfl
          | cons d ds => simpa [inLine, Gap.endsPlain] using hhash rfl
        have hstops := endsPlain_append hcolon tail
        have hplain := plain_append (g := []) m tail hcs'
          (by simpa [hblank, hbreak] using hrest) hlast' fun _ => rfl
        rw [if_neg (by simp [hblank, hbreak]), hends, if_neg Bool.false_ne_true,
          if_neg (by simp), hstops, if_neg Bool.false_ne_true]
        rw [inLine_nil] at hplain
        rw [hplain, text_inLine, Option.map_map]
        simp [Function.comp_def]

theorem hasIndicator_of_first {cs : List Char} (h : hasIndicator true true cs = false) :
    hasIndicator false false cs = false := by
  cases cs with
  | nil => rfl
  | cons c cs =>
      simp only [hasIndicator, Bool.or_eq_false_iff, Bool.false_and] at h ⊢
      exact ⟨⟨⟨⟨trivial, trivial⟩, h.1.1.2⟩, trivial⟩, h.2⟩

theorem plain_of_allowsPlain (m : Nat) {cs : List Char} (h : allowsPlain cs = true)
    (tail : List Char) :
    plain false m .none (cs ++ tail) =
      (plain false m .none tail).map fun p => { p with text := cs ++ p.text } := by
  simp only [allowsPlain, Bool.and_eq_true, Bool.not_eq_true'] at h
  obtain ⟨⟨⟨⟨⟨⟨⟨hescape, hbreak⟩, -⟩, hlast⟩, -⟩, -⟩, -⟩, hindicator⟩ := h
  refine plain_append (g := []) m _ (fun c hc => ⟨?_, ?_⟩) ?_ (fun c hc => ?_) fun _ => rfl
  · exact ne_tab_of_isPrintable (isPrintable_of_needsEscape hescape c hc)
  · rw [List.any_eq_false] at hbreak; simpa using hbreak c hc
  · exact hasIndicator_of_first hindicator
  · rw [Option.mem_def.mp hc] at hlast
    simpa [isSpace] using hlast

theorem exists_cons_of_allowsPlain {cs : List Char} (h : allowsPlain cs = true) :
    ∃ c ds, cs = c :: ds ∧ isVisible c = true := by
  have hne : cs ≠ [] := by rintro rfl; exact absurd h (by decide)
  obtain ⟨c, ds, rfl⟩ := List.exists_cons_of_ne_nil hne
  simp only [allowsPlain, Bool.and_eq_true, Bool.not_eq_true'] at h
  obtain ⟨⟨⟨⟨⟨⟨⟨hescape, hbreak⟩, hspace⟩, -⟩, -⟩, -⟩, -⟩, hindicator⟩ := h
  have hprint := isPrintable_of_needsEscape hescape c List.mem_cons_self
  rw [List.any_cons, Bool.or_eq_false_iff] at hbreak
  refine ⟨c, ds, rfl, isVisible_iff.mpr ⟨isBlank_eq_false ?_ (ne_tab_of_isPrintable hprint),
    hbreak.1, ?_, ?_⟩⟩
  · rintro rfl; exact absurd hspace (by simp [isSpace])
  · rintro rfl; exact absurd hindicator (by simp [hasIndicator])
  · rintro rfl; exact absurd hprint (by decide)

theorem plain_spaces (m : Nat) (first : Option Char) (more : List Char) (column k : Nat)
    (rest : List Char) :
    plain false m (.lines first more column) (spaces k ++ rest) =
      plain false m (.lines first more (column + k)) rest := by
  induction k generalizing column with
  | zero => rfl
  | succ k ih =>
      rw [spaces, List.replicate_succ, List.cons_append, plain, if_pos (by decide),
        if_neg (by simp), Gap.extend, if_pos (by decide), ← spaces, ih]
      congr 2; omega

theorem plain_newline {m k : Nat} {rest : List Char} (hk : k < m) (h : Resumes k rest) :
    plain false m .none ('\n' :: (spaces k ++ rest)) = some ⟨[], true, rest⟩ := by
  rw [plain, if_pos (by decide), if_neg (by simp)]
  change plain false m (.lines (some '\n') [] 0) _ = _
  rw [plain_spaces, Nat.zero_add]
  obtain ⟨-, rfl⟩ | ⟨c, cs, rfl, hc⟩ := h
  · rfl
  · obtain ⟨hblank, hbreak, -⟩ := isVisible_iff.mp hc
    rw [plain, if_neg (by simp [hblank, hbreak]), if_pos (by simp [Gap.endsPlain, Gap.isShort, hk])]
    rfl

/-! ### 語 -/

/-- 語に使う文字。 -/
def IsWordChar (c : Char) : Prop := c.isAlphanum = true ∨ c = '_'

instance (c : Char) : Decidable (IsWordChar c) := inferInstanceAs (Decidable (_ ∨ _))

theorem IsWordChar.isPrintable {c : Char} (h : IsWordChar c) : isPrintable c = true := by
  rcases h with h | rfl
  · change (decide (c.val ≥ 'A'.val ∧ c.val ≤ 'Z'.val) || (c.val ≥ 'a'.val && c.val ≤ 'z'.val) ||
      (c.val ≥ '0'.val && c.val ≤ '9'.val)) = true at h
    simp only [Bool.or_eq_true, Bool.and_eq_true, decide_eq_true_eq, ge_iff_le,
      UInt32.le_iff_toNat_le, Char.toNat_val, Char.reduceToNat] at h
    have hrange : ' ' ≤ c ∧ c ≤ '~' := by
      simp only [Char.le_def, UInt32.le_iff_toNat_le, Char.toNat_val, Char.reduceToNat]
      omega
    simp [Yaml.isPrintable, hrange]
  · decide

theorem IsWordChar.ne {c d : Char} (h : IsWordChar c) (hd : ¬IsWordChar d) : c ≠ d := by
  rintro rfl
  exact hd h

theorem IsWordChar.isVisible {c : Char} (h : IsWordChar c) : isVisible c = true := by
  simp [Yaml.isVisible, isBlank, isBreak, h.ne (d := ' ') (by decide), h.ne (d := '\t') (by decide),
    h.ne (d := '\n') (by decide), h.ne (d := '\u2028') (by decide),
    h.ne (d := '\u2029') (by decide), h.ne (d := '#') (by decide), h.ne (d := '\ufeff') (by decide)]

theorem IsWordChar.isMarker {c : Char} (h : IsWordChar c) (cs : List Char) :
    isMarker (c :: cs) = false := by
  unfold Yaml.isMarker
  split
  · rename_i heq
    exact absurd (List.cons.inj heq).1 (h.ne (by decide))
  · rename_i heq
    exact absurd (List.cons.inj heq).1 (h.ne (by decide))
  · rfl

theorem hasIndicator_of_word {cs : List Char} (h : ∀ c ∈ cs, IsWordChar c) (first spaced : Bool) :
    hasIndicator first spaced cs = false := by
  induction cs generalizing first spaced with
  | nil => rfl
  | cons c cs ih =>
      obtain ⟨hc, hcs⟩ := List.forall_mem_cons.mp h
      have hspecial : c ∉ "#,[]{}&*!|>'\"%@\x60".toList := fun hmem => by
        have hall : "#,[]{}&*!|>'\"%@\x60".toList.all (fun d => !decide (IsWordChar d)) = true := by
          decide
        simpa [hc] using List.all_eq_true.mp hall c hmem
      have hdash : c ∉ ['?', '-'] := by
        simp [hc.ne (d := '?') (by decide), hc.ne (d := '-') (by decide)]
      rw [hasIndicator, decide_eq_false hspecial, decide_eq_false hdash,
        beq_eq_false_iff_ne.mpr (hc.ne (d := ':') (by decide)),
        beq_eq_false_iff_ne.mpr (hc.ne (d := '#') (by decide)), ih hcs]
      simp only [Bool.and_false, Bool.false_and, Bool.or_self]

theorem hasPair_of_forall {p : Char → Bool} (q : Char → Bool) {cs : List Char}
    (h : ∀ c ∈ cs, p c = false) : hasPair p q cs = false := by
  induction cs with
  | nil => rfl
  | cons c cs ih =>
      obtain ⟨hc, hcs⟩ := List.forall_mem_cons.mp h
      cases cs with
      | nil => rfl
      | cons d cs => rw [hasPair, hc, Bool.false_and, Bool.false_or, ih hcs]

theorem allowsPlain_of_word {cs : List Char} (hne : cs ≠ []) (h : ∀ c ∈ cs, IsWordChar c) :
    allowsPlain cs = true := by
  have hspace : ∀ c ∈ cs, isSpace c = false := fun c hc => by
    simpa [isSpace] using (h c hc).ne (d := ' ') (by decide)
  have hbreak : cs.any isBreak = false := by
    rw [List.any_eq_false]
    intro c hc
    simp [(isVisible_iff.mp (h c hc).isVisible).2.1]
  have hescape : needsEscape cs = false := by
    rw [needsEscape, hasPair_of_forall isBreak hspace, Bool.or_false, List.any_eq_false]
    intro c hc
    simp [(h c hc).isPrintable]
  have hlast : cs.getLast?.any isSpace = false := by
    rw [List.getLast?_eq_some_getLast hne, Option.any_some]
    exact hspace _ (List.getLast_mem hne)
  obtain ⟨c, cs, rfl⟩ := List.exists_cons_of_ne_nil hne
  have hc := h c List.mem_cons_self
  have hmarker : "---".toList.isPrefixOf (c :: cs) = false ∧
      "...".toList.isPrefixOf (c :: cs) = false := by
    constructor <;> refine Bool.and_eq_false_imp.mpr fun heq => ?_
    · exact absurd (beq_iff_eq.mp heq).symm (hc.ne (by decide))
    · exact absurd (beq_iff_eq.mp heq).symm (hc.ne (by decide))
  rw [allowsPlain, hescape, hbreak, hlast, List.head?_cons, Option.any_some,
    hspace c List.mem_cons_self, hmarker.1, hmarker.2, hasIndicator_of_word h]
  rfl

/-! ## 一重引用符で囲んだ文字列 -/

theorem hasPair_cons {p q : Char → Bool} {c : Char} {cs : List Char}
    (h : hasPair p q (c :: cs) = false) :
    (p c = true → ∀ d ∈ cs.head?, q d = false) ∧ hasPair p q cs = false := by
  cases cs with
  | nil => exact ⟨fun _ _ hd => absurd hd (by simp), rfl⟩
  | cons d ds =>
      rw [hasPair, Bool.or_eq_false_iff, Bool.and_eq_false_iff] at h
      refine ⟨fun hc e he => ?_, h.2⟩
      cases he
      exact h.1.resolve_left (by simp [hc])

theorem single_extend {c : Char} (h : (isBlank c || isBreak c) = true) (gap : Gap)
    (cs : List Char) : single gap (c :: cs) = single (gap.extend c) cs := by
  rw [single.eq_def]
  exact if_pos h

theorem single_spaces (first : Option Char) (more : List Char) (column k : Nat) (rest : List Char) :
    single (.lines first more column) (spaces k ++ rest) =
      single (.lines first more (column + k)) rest := by
  induction k generalizing column with
  | zero => rfl
  | succ k ih =>
      rw [spaces, List.replicate_succ, List.cons_append, single_extend (by decide), Gap.extend,
        if_pos (by decide), ← spaces, ih]
      congr 2; omega

theorem text_lines {b : Char} (hb : b ≠ '\n') (more : List Char) (column : Nat) :
    (Gap.lines (some b) more column).text = b :: more := by
  cases more <;> simp [Gap.text, hb]

/-- 空きでない一文字を一重引用符の中に書いたもの。引用符は二つ重ねる。 -/
theorem single_char {gap : Gap} {c : Char} (hblank : isBlank c = false) (hbreak : isBreak c = false)
    (hgap : gap.isShort 1 = false) (rest : List Char) :
    single gap ((if c = '\'' then ['\'', '\''] else [c]) ++ rest) =
      (single .none rest).after (gap.text ++ [c]) := by
  split
  · rename_i hc
    subst hc
    rw [List.cons_append, List.singleton_append, single, if_neg (by decide), hgap]
    rfl
  · rename_i hc
    rw [List.singleton_append, single.eq_def]
    simp only [hblank, hbreak, hgap, hc, Bool.or_self, Bool.false_and, Bool.false_eq_true,
      ↓reduceIte]

mutual
/-- 行の中から、閉じる引用符まで読む。 -/
theorem single_inLine {indent : Nat} (hindent : 0 < indent) (rest : List Char) :
    ∀ {cs g : List Char}, (∀ c ∈ cs, c ≠ '\t' ∧ c ≠ '\n') → hasPair isSpace isBreak cs = false →
      hasPair isBreak isSpace cs = false → (g ≠ [] → ∀ c ∈ cs.head?, isBreak c = false) →
      single (inLine g) (singleBody indent false cs ++ '\'' :: '\n' :: rest) =
        some (g ++ cs, '\n' :: rest)
  | [], g, _, _, _, _ => by
      rw [singleBody, if_neg Bool.false_ne_true, List.nil_append, single, if_neg (by decide),
        isShort_inLine, if_neg (by simp), if_pos rfl, text_inLine, List.append_nil]
      simp
  | c :: cs, g, hcs, hend, hstart, hg => by
      obtain ⟨htab, hnewline⟩ := hcs c List.mem_cons_self
      have hcs' := fun d hd => hcs d (List.mem_cons_of_mem c hd)
      obtain ⟨hspace, hend'⟩ := hasPair_cons hend
      obtain ⟨hbreak, hstart'⟩ := hasPair_cons hstart
      rw [singleBody]
      by_cases hc : isBreak c = true
      · -- 改行の前に空白はないので、空きは改行だけになる。
        have hg' : g = [] := Classical.not_not.mp fun hne =>
          absurd hc (Bool.eq_false_iff.mp (hg hne c rfl))
        have hblank : isBlank c = false := by
          refine isBlank_eq_false ?_ htab
          rintro rfl; exact absurd hc (by decide)
        rw [if_pos hc, hg', inLine_nil, List.cons_append, single_extend (by simp [hc]), Gap.extend,
          if_neg (by simp [hblank]),
          single_lines hindent rest hnewline hcs' hend' hstart' (fun d hd => ?_)]
        · rfl
        · simpa [isSpace] using hbreak hc d hd
      · have hbreak : isBreak c = false := Bool.eq_false_iff.mpr hc
        rw [if_neg hc, if_neg Bool.false_ne_true, List.nil_append, List.append_assoc]
        by_cases hc' : c = ' '
        · subst hc'
          rw [if_neg (by decide), List.singleton_append, single_extend (by decide),
            extend_inLine g (by decide), single_inLine hindent rest hcs' hend' hstart'
              (fun _ => hspace rfl), List.append_assoc, List.singleton_append]
        · rw [single_char (isBlank_eq_false hc' htab) hbreak (isShort_inLine g 1), ← inLine_nil,
            single_inLine hindent rest hcs' hend' hstart' (fun h => absurd rfl h), text_inLine]
          simp [Quoted.after]

theorem single_lines {indent : Nat} (hindent : 0 < indent) (rest : List Char) {b : Char}
    {more : List Char} (hb : b ≠ '\n') :
    ∀ {cs : List Char}, (∀ c ∈ cs, c ≠ '\t' ∧ c ≠ '\n') → hasPair isSpace isBreak cs = false →
      hasPair isBreak isSpace cs = false → (∀ c ∈ cs.head?, c ≠ ' ') →
      single (.lines (some b) more 0) (singleBody indent true cs ++ '\'' :: '\n' :: rest) =
        some (b :: more ++ cs, '\n' :: rest)
  | [], _, _, _, _ => by
      have hshort : (Gap.lines (some b) more (0 + indent)).isShort 1 = false := by
        simp [Gap.isShort]; omega
      rw [singleBody, if_pos rfl, single_spaces, single, if_neg (by decide), hshort,
        if_neg (by simp), if_pos rfl, text_lines hb, List.append_nil]
      simp
  | c :: cs, hcs, hend, hstart, hhead => by
      obtain ⟨htab, hnewline⟩ := hcs c List.mem_cons_self
      have hcs' := fun d hd => hcs d (List.mem_cons_of_mem c hd)
      obtain ⟨-, hend'⟩ := hasPair_cons hend
      obtain ⟨hbreak, hstart'⟩ := hasPair_cons hstart
      have hblank := isBlank_eq_false (hhead c rfl) htab
      have hshort : (Gap.lines (some b) more (0 + indent)).isShort 1 = false := by
        simp [Gap.isShort]; omega
      rw [singleBody]
      by_cases hc : isBreak c = true
      · rw [if_pos hc, List.cons_append, single_extend (by simp [hc]), Gap.extend,
          if_neg (by simp [hblank]), single_lines hindent rest hb hcs' hend' hstart' (fun d hd => ?_)]
        · simp
        · simpa [isSpace] using hbreak hc d hd
      · rw [if_neg hc, if_pos rfl, List.append_assoc, List.append_assoc, single_spaces,
          single_char hblank (Bool.eq_false_iff.mpr hc) hshort, ← inLine_nil,
          single_inLine hindent rest hcs' hend' hstart' (fun h => absurd rfl h), text_lines hb]
        simp [Quoted.after]
end

theorem single_of_allowsSingle {indent : Nat} (hindent : 0 < indent) {cs : List Char}
    (h : allowsSingle cs = true) (hnewline : '\n' ∉ cs) (rest : List Char) :
    single .none (singleBody indent false cs ++ '\'' :: '\n' :: rest) = some (cs, '\n' :: rest) := by
  rw [allowsSingle, Bool.and_eq_true, Bool.not_eq_true', Bool.not_eq_true'] at h
  have hpair : hasPair isSpace isBreak cs = false := (Bool.or_eq_false_iff.mp h.1).2
  refine single_inLine (g := []) hindent rest (fun c hc => ⟨?_, ?_⟩) hpair h.2 fun h => absurd rfl h
  · exact ne_tab_of_isPrintable (isPrintable_of_needsEscape h.1 c hc)
  · rintro rfl; exact hnewline hc

/-! ## 二重引用符で囲んだ文字列 -/

attribute [local instance (2000)] instPowNat

theorem charOfDigits?_digits {c : Char} (width : Nat) (h : c.toNat < 16 ^ width) :
    charOfDigits? (Hex.digits Hex.upper width c.toNat) = some c := by
  rw [charOfDigits?, Hex.ofDigits?_digits_upper, Nat.mod_eq_of_lt h]
  exact (if_pos c.valid).trans (congrArg some (Char.ofNat_toNat c))

/-- 符号にする文字は、四桁の十六進で書ける。 -/
theorem toNat_lt_of_not_isPrintable {c : Char} (h : isPrintable c = false) : c.toNat < 0x10000 := by
  simp only [isPrintable, Bool.or_eq_false_iff, Bool.and_eq_false_iff, bne_eq_false_iff_eq,
    decide_eq_false_iff_not] at h
  obtain ⟨-, ((hlow | rfl) | rfl) | rfl⟩ := h
  · have : ¬ 0xa0 ≤ c.toNat := hlow
    omega
  · decide
  · decide
  · decide

theorem double_extend {c : Char} (h : (isBlank c || isBreak c) = true) (gap : Gap)
    (cs : List Char) : double gap (c :: cs) = double (gap.extend c) cs := by
  rw [double.eq_def]
  exact if_pos h

theorem double_char {c : Char} (hspace : c ≠ ' ') (g rest : List Char) :
    double (inLine g) (doubleChar c ++ rest) = (double .none rest).after (g ++ [c]) := by
  unfold doubleChar
  split
  case h_15 =>
    split
    · rw [List.singleton_append, double.eq_def]
      simp_all [isBlank, isBreak]
    · rename_i hprint
      rw [Bool.not_eq_true] at hprint
      split
      · rename_i hlt
        obtain ⟨a, b, hdigits⟩ : ∃ a b, Hex.digits Hex.upper 2 c.toNat = [a, b] := ⟨_, _, rfl⟩
        have hchar := charOfDigits?_digits 2 hlt
        rw [hdigits] at hchar ⊢
        simp [double, isBlank, isBreak, hchar]
      · obtain ⟨a, b, d, e, hdigits⟩ : ∃ a b d e, Hex.digits Hex.upper 4 c.toNat = [a, b, d, e] :=
          ⟨_, _, _, _, rfl⟩
        have hchar := charOfDigits?_digits 4 (toNat_lt_of_not_isPrintable hprint)
        rw [hdigits] at hchar ⊢
        simp [double, isBlank, isBreak, hchar]
  all_goals
    simp [double, escape?, isBlank, isBreak]

/-- 符号は元の文字に戻る。行を改める文字はどれも符号で書くので、空きは行の中の空白だけである。 -/
theorem double_body (rest : List Char) : ∀ cs g : List Char,
    double (inLine g) (cs.flatMap doubleChar ++ '"' :: rest) = some (g ++ cs, rest)
  | [], g => by
      rw [List.flatMap_nil, List.nil_append, double.eq_def]
      simp [isBlank, isBreak]
  | c :: cs, g => by
      rw [List.flatMap_cons, List.append_assoc]
      by_cases hc : c = ' '
      · subst hc
        have hspace : doubleChar ' ' = [' '] := by decide
        rw [hspace, List.singleton_append, double_extend (by decide),
          extend_inLine g (by decide), double_body rest cs, List.append_assoc,
          List.singleton_append]
      · rw [double_char hc, ← inLine_nil, double_body rest cs]
        simp [Quoted.after]

/-! ## 行を改めたまま書いた文字列 -/

section Literal

variable {chomp : Chomp} {width : Nat}

theorem blockLines_spaces {column k : Nat} (h : column + k ≤ width) (breaks : Breaks)
    (rest : List Char) :
    blockLines false chomp width (.indent column breaks) (spaces k ++ rest) =
      blockLines false chomp width (.indent (column + k) breaks) rest := by
  induction k generalizing column with
  | zero => rfl
  | succ k ih =>
      have hcolumn : column < width := by omega
      rw [spaces, List.replicate_succ, List.cons_append, blockLines]
      simp only [true_and, hcolumn, ↓reduceIte]
      rw [← spaces, ih (by omega)]
      congr 2; omega

theorem blockLines_breaks {bs : List Char} (hbs : ∀ c ∈ bs, isBreak c = true) (breaks : Breaks)
    (rest : List Char) :
    blockLines false chomp width (.indent 0 breaks) (bs ++ rest) =
      blockLines false chomp width (.indent 0 { breaks with more := breaks.more ++ bs }) rest := by
  induction bs generalizing breaks with
  | nil => rw [List.nil_append, List.append_nil]
  | cons c cs ih =>
      have hc := hbs c List.mem_cons_self
      have hblank : c ≠ ' ' ∧ c ≠ '\t' := by
        constructor <;> rintro rfl <;> exact absurd hc (by decide)
      rw [List.cons_append, blockLines]
      simp only [hblank.1, hblank.2, hc, false_and, ↓reduceIte]
      rw [ih fun d hd => hbs d (List.mem_cons_of_mem c hd), List.append_assoc,
        List.singleton_append]

/-- 浅い行の前で終わり、終わりの改行を印のとおりに残す。 -/
theorem blockLines_resumes {k : Nat} {rest : List Char} (hk : k < width) (h : Resumes k rest)
    (breaks : Breaks) :
    blockLines false chomp width (.indent 0 breaks) (spaces k ++ rest) =
      some (breaks.tail chomp, rest) := by
  rw [blockLines_spaces (by omega), Nat.zero_add]
  obtain ⟨-, rfl⟩ | ⟨c, cs, rfl, hc⟩ := h
  · rfl
  · obtain ⟨hblank, hbreak, -⟩ := isVisible_iff.mp hc
    have hne : c ≠ ' ' ∧ c ≠ '\t' := by
      constructor <;> rintro rfl <;> exact absurd hblank (by decide)
    rw [blockLines]
    simp only [hne.1, hne.2, hbreak, hk, false_and, Bool.false_eq_true, ↓reduceIte]

mutual
theorem blockLines_line (tail : List Char) : ∀ {cs : List Char} (indented : Bool),
    (∀ c ∈ cs.getLast?, isBreak c = false) → ∃ last,
      blockLines false chomp width (.line indented) (Yaml.indented width false cs ++ tail) =
        (blockLines false chomp width (.line last) tail).map fun (text, rest) => (cs ++ text, rest)
  | [], indented, _ => ⟨indented, (congrFun Option.map_id _).symm⟩
  | c :: cs, indented, hlast => by
      rw [Yaml.indented]
      by_cases hc : isBreak c = true
      · have hne : cs ≠ [] := by rintro rfl; exact absurd hc (by simp [hlast c rfl])
        obtain ⟨last, hread⟩ := blockLines_indent tail hne { first := [c], indented }
          (forall_mem_getLast?_of_cons hlast)
        refine ⟨last, ?_⟩
        rw [if_pos hc, List.cons_append, blockLines]
        simp only [hc, ↓reduceIte]
        exact hread
      · obtain ⟨last, hread⟩ :=
          blockLines_line tail indented (forall_mem_getLast?_of_cons hlast)
        refine ⟨last, ?_⟩
        rw [if_neg hc, if_neg Bool.false_ne_true, List.cons_append, blockLines]
        simp only [hc]
        rw [if_neg Bool.false_ne_true, hread, Option.map_map]
        rfl

theorem blockLines_indent (tail : List Char) : ∀ {cs : List Char}, cs ≠ [] → ∀ breaks : Breaks,
    (∀ c ∈ cs.getLast?, isBreak c = false) → ∃ last,
      blockLines false chomp width (.indent 0 breaks) (Yaml.indented width true cs ++ tail) =
        (blockLines false chomp width (.line last) tail).map fun (text, rest) =>
          (breaks.first ++ breaks.more ++ cs ++ text, rest)
  | [], hne, _, _ => absurd rfl hne
  | c :: cs, _, breaks, hlast => by
      rw [Yaml.indented]
      by_cases hc : isBreak c = true
      · have hne : cs ≠ [] := by rintro rfl; exact absurd hc (by simp [hlast c rfl])
        obtain ⟨last, hread⟩ :=
          blockLines_indent tail hne { breaks with more := breaks.more ++ [c] }
            (forall_mem_getLast?_of_cons hlast)
        refine ⟨last, ?_⟩
        have hbreaks : blockLines false chomp width (.indent 0 breaks)
            ([c] ++ (Yaml.indented width true cs ++ tail)) = _ :=
          blockLines_breaks (fun d hd => List.mem_singleton.mp hd ▸ hc) breaks _
        rw [if_pos hc, List.cons_append, ← List.singleton_append, hbreaks, hread]
        simp only [List.append_assoc, List.singleton_append]
      · obtain ⟨last, hread⟩ :=
          blockLines_line tail (isBlank c) (forall_mem_getLast?_of_cons hlast)
        refine ⟨last, ?_⟩
        rw [if_neg hc, if_pos rfl, List.append_assoc, blockLines_spaces (by omega), Nat.zero_add,
          List.cons_append, blockLines]
        simp only [Nat.lt_irrefl, hc, and_false, Bool.false_eq_true, ↓reduceIte]
        rw [hread, Option.map_map]
        simp only [Function.comp_def, Breaks.text, Bool.false_and, Bool.false_eq_true,
          List.append_assoc, List.cons_append, ↓reduceIte]
end

/-- 終わりの改行の扱いを示す印。 -/
def Chomp.mark : Chomp → List Char
  | .strip => ['-']
  | .clip => []
  | .keep => ['+']

/-- 終わりの改行の扱いは、終わりに並ぶ改行をすべて残す。 -/
inductive Chomp.Keeps : Chomp → List Char → List Char → Prop
  | strip (body : List Char) : Keeps .strip body []
  | clip {body : List Char} (hbody : body ≠ []) (c : Char) : Keeps .clip body [c]
  | keep (body : List Char) (c : Char) (cs : List Char) : Keeps .keep body (c :: cs)

/-- 終わりに並ぶ改行を分ければ、印はその数で決まる。 -/
theorem exists_chompMark_eq (cs : List Char) : ∃ body bs chomp, cs = body ++ bs ∧
    (∀ c ∈ body.getLast?, isBreak c = false) ∧ (∀ c ∈ bs, isBreak c = true) ∧
      chompMark cs = Chomp.mark chomp ∧ chomp.Keeps body bs := by
  -- 終わりから見て分けるので、裏返した列で考える。
  obtain ⟨rs, rfl⟩ : ∃ rs : List Char, cs = rs.reverse := ⟨cs.reverse, cs.reverse_reverse.symm⟩
  have hsplit : rs.reverse = (rs.dropWhile isBreak).reverse ++ (rs.takeWhile isBreak).reverse := by
    rw [← List.reverse_append, List.takeWhile_append_dropWhile]
  have hbody : ∀ c ∈ (rs.dropWhile isBreak).reverse.getLast?, isBreak c = false := fun c hc => by
    rw [List.getLast?_reverse] at hc
    have hhead := List.head?_dropWhile_not isBreak rs
    rw [Option.mem_def.mp hc] at hhead
    simpa using hhead
  have hbs : ∀ c ∈ (rs.takeWhile isBreak).reverse, isBreak c = true := fun c hc =>
    List.mem_takeWhile_imp (List.mem_reverse.mp hc)
  suffices hmark : ∃ chomp, chompMark rs.reverse = Chomp.mark chomp ∧
      chomp.Keeps (rs.dropWhile isBreak).reverse (rs.takeWhile isBreak).reverse by
    obtain ⟨chomp, hmark, hkeeps⟩ := hmark
    exact ⟨_, _, chomp, hsplit, hbody, hbs, hmark, hkeeps⟩
  rw [chompMark, List.reverse_reverse]
  rcases rs with _ | ⟨c, _ | ⟨d, rs⟩⟩
  · exact ⟨.strip, rfl, .strip _⟩
  · by_cases hc : isBreak c = true
    · exact ⟨.keep, by simp [hc, Chomp.mark], by simp [hc, Chomp.Keeps.keep]⟩
    · exact ⟨.strip, by simp [hc, Chomp.mark], by simp [hc, Chomp.Keeps.strip]⟩
  · by_cases hc : isBreak c = true
    · by_cases hd : isBreak d = true
      · refine ⟨.keep, by simp [hc, hd, Chomp.mark], ?_⟩
        obtain ⟨b, bs, hbs⟩ := List.exists_cons_of_ne_nil
          (l := ((c :: d :: rs).takeWhile isBreak).reverse) (by simp [hc])
        rw [hbs]
        exact .keep _ b bs
      · refine ⟨.clip, by simp [hc, hd, Chomp.mark], ?_⟩
        simp only [hc, hd, List.dropWhile_cons, List.takeWhile_cons, Bool.false_eq_true, ↓reduceIte,
          List.reverse_singleton]
        exact .clip (by simp) c
    · exact ⟨.strip, by simp [hc, Chomp.mark], by simp [hc, Chomp.Keeps.strip]⟩

theorem indented_append (startsLine : Bool) (cs : List Char) {bs : List Char}
    (hbs : ∀ c ∈ bs, isBreak c = true) :
    indented width startsLine (cs ++ bs) = indented width startsLine cs ++ bs := by
  induction cs generalizing startsLine with
  | nil =>
      rw [List.nil_append, indented, List.nil_append]
      induction bs generalizing startsLine with
      | nil => rfl
      | cons b bs ih =>
          rw [indented, if_pos (hbs b List.mem_cons_self),
            ih fun c hc => hbs c (List.mem_cons_of_mem b hc)]
  | cons c cs ih =>
      simp only [List.cons_append, indented, ih]
      split
      · rfl
      · split <;> simp

/-- 空でない中身と、その後に並ぶ改行を、浅い行の前まで読む。 -/
theorem blockLines_body {k : Nat} {body cs rest : List Char} {c : Char} (hk : k < width)
    (h : Resumes k rest) (hne : body ≠ []) (hbody : ∀ c ∈ body.getLast?, isBreak c = false)
    (hbs : ∀ d ∈ c :: cs, isBreak d = true) :
    blockLines false chomp width (.indent 0 {})
        (indented width true body ++ (c :: cs ++ (spaces k ++ rest))) =
      some (body ++ Breaks.tail { first := [c], more := cs } chomp, rest) := by
  obtain ⟨hc, hcs⟩ := List.forall_mem_cons.mp hbs
  obtain ⟨last, hread⟩ := blockLines_indent (c :: cs ++ (spaces k ++ rest)) hne {} hbody
  rw [hread, List.cons_append, blockLines]
  simp only [hc, ↓reduceIte]
  rw [blockLines_breaks hcs, blockLines_resumes hk h]
  cases chomp <;> rfl

theorem any_getLast?_append {body bs : List Char} (hbody : ∀ c ∈ body.getLast?, isBreak c = false)
    (hbs : ∀ c ∈ bs, isBreak c = true) :
    (body ++ bs).getLast?.any isBreak = !bs.isEmpty := by
  cases bs with
  | nil =>
      rw [List.append_nil, List.isEmpty_nil, Bool.not_true, Option.any_eq_false_iff_get]
      intro hsome
      simp [hbody _ (Option.get_mem hsome)]
  | cons c cs =>
      rw [List.getLast?_append, List.getLast?_eq_some_getLast (List.cons_ne_nil c cs),
        Option.some_or]
      exact hbs _ (List.getLast_mem _)

/-- 中身と終わりの改行を、浅い行の前まで読む。 -/
theorem blockLines_indented {k : Nat} {body bs rest : List Char} (hk : k < width)
    (h : Resumes k rest) (hne : body ++ bs ≠ []) (hbody : ∀ c ∈ body.getLast?, isBreak c = false)
    (hbs : ∀ c ∈ bs, isBreak c = true) (hkeeps : chomp.Keeps body bs) :
    blockLines false chomp width (.indent 0 {})
        (indented width true (body ++ bs) ++
          ((if (body ++ bs).getLast?.any isBreak then [] else ['\n']) ++ (spaces k ++ rest))) =
      some (body ++ bs, rest) := by
  rw [indented_append true body hbs, List.append_assoc, any_getLast?_append hbody hbs]
  cases hkeeps with
  | strip body =>
      -- 改行で終わらないので、書いた改行は残らない。
      rw [List.append_nil] at hne
      have hnewline : ∀ d ∈ ['\n'], isBreak d = true := List.forall_mem_singleton.mpr rfl
      exact blockLines_body hk h hne hbody hnewline
  | clip hbody' c => exact blockLines_body hk h hbody' hbody hbs
  | keep body c cs =>
      by_cases hbody' : body = []
      · subst hbody'
        rw [indented, List.nil_append, List.isEmpty_cons, Bool.not_false, if_pos rfl,
          List.nil_append, blockLines_breaks hbs, blockLines_resumes hk h]
        rfl
      · exact blockLines_body hk h hbody' hbody hbs

theorem blockHeader_eq (cs : List Char) (chomp : Chomp) (rest : List Char) :
    let hint : List Char := if cs.head?.any fun c => isSpace c || isBreak c then ['2'] else []
    ∃ width, blockHeader (hint ++ chomp.mark ++ '\n' :: rest) = (⟨chomp, width⟩, '\n' :: rest) ∧
      (width = some 2 ∨ width = none ∧ ∀ c ∈ cs.head?, isSpace c = false ∧ isBreak c = false) := by
  intro hint
  by_cases h : (cs.head?.any fun c => isSpace c || isBreak c) = true
  · refine ⟨some 2, ?_, .inl rfl⟩
    simp only [hint, h, if_true]
    cases chomp <;> rfl
  · refine ⟨none, ?_, .inr ⟨rfl, fun c hc => ?_⟩⟩
    · simp only [hint, h]
      cases chomp <;> rfl
    · rw [Option.mem_def.mp hc] at h
      simpa using h

theorem widest_spaces (best column k : Nat) (rest : List Char) :
    widest best column (spaces k ++ rest) = widest best (column + k) rest := by
  induction k generalizing column with
  | zero => rfl
  | succ k ih =>
      rw [spaces, List.replicate_succ, List.cons_append, widest, if_pos rfl, ← spaces, ih]
      congr 1; omega

end Literal

/-- 縦線の後を、字下げの幅と終わりの改行の扱いを決めて読む。 -/
theorem block_literal {indent k : Nat} {cs rest : List Char} (hcs : allowsLiteral cs = true)
    (hk : k ≤ indent) (h : Resumes k rest) :
    ∃ marked, literal (indent + 2) cs = '|' :: marked ∧
      block false (some indent) (marked ++ (spaces k ++ rest)) = some (cs, rest) := by
  obtain ⟨body, bs, chomp, hsplit, hbody, hbs, hmark, hkeeps⟩ := exists_chompMark_eq cs
  have hne : cs ≠ [] := by rintro rfl; exact absurd hcs (by decide)
  have hlines := blockLines_indented (show k < indent + 2 by omega) h (hsplit ▸ hne) hbody hbs
    hkeeps
  obtain ⟨width, hheader, hwidth⟩ := blockHeader_eq cs chomp (indented (indent + 2) true cs ++
    ((if cs.getLast?.any isBreak then [] else ['\n']) ++ (spaces k ++ rest)))
  rw [← hsplit] at hlines
  have hend (x : List Char) : endLine ('\n' :: x) = some x := rfl
  refine ⟨(if cs.head?.any fun c => isSpace c || isBreak c then ['2'] else []) ++ chompMark cs ++
    '\n' :: indented (indent + 2) true cs ++ if cs.getLast?.any isBreak then [] else ['\n'], rfl, ?_⟩
  simp only [List.append_assoc, List.cons_append, hmark] at hheader ⊢
  rw [block, hheader]
  simp only [hend, Option.bind_eq_bind, Option.bind_some]
  obtain rfl | ⟨rfl, hhead⟩ := hwidth
  · exact hlines
  · -- 字下げの幅を書かないときは、初めの行の字下げがその幅になる。
    obtain ⟨c, cs', rfl⟩ := List.exists_cons_of_ne_nil hne
    obtain ⟨hspace, hbreak⟩ := hhead c rfl
    have hprint := isPrintable_of_needsEscape (needsEscape_of_allowsLiteral hcs) c List.mem_cons_self
    have hwidest (x : List Char) :
        widest 0 0 (indented (indent + 2) true (c :: cs') ++ x) = some (indent + 2) := by
      have htab := ne_tab_of_isPrintable hprint
      rw [indented, if_neg (by simp [hbreak]), if_pos rfl, List.append_assoc, widest_spaces,
        List.cons_append, widest]
      simp only [beq_eq_false_iff_ne.mp hspace, htab, hbreak, Bool.false_eq_true, ↓reduceIte]
      simp
    have hmax : max (indent + 2) (max 1 (indent + 1)) = indent + 2 := by omega
    rw [hwidest]
    simp only [Option.bind_some, Option.elim_some, pure, hmax]
    exact hlines

theorem exists_literal_eq_concat (indent : Nat) (cs : List Char) :
    ∃ pre b, literal indent cs = pre ++ [b] ∧ isBreak b = true := by
  rw [literal]
  by_cases hbreak : cs.getLast?.any isBreak = true
  · obtain ⟨b, hb, hbreak'⟩ := (Option.any_eq_true ..).mp hbreak
    obtain ⟨body, rfl⟩ := List.getLast?_eq_some_iff.mp hb
    have hbody : indented indent true (body ++ [b]) = indented indent true body ++ [b] :=
      indented_append true body fun c hc => List.mem_singleton.mp hc ▸ hbreak'
    simp only [hbreak, ↓reduceIte, List.append_nil, hbody]
    exact ⟨_, b, by rw [← List.cons_append, ← List.append_assoc], hbreak'⟩
  · simp only [hbreak]
    exact ⟨_, '\n', rfl, rfl⟩

/-! ## 書いた文字 -/

theorem isPrintable_spaces (n : Nat) : ∀ c ∈ spaces n, isPrintable c = true := by
  intro c hc
  rw [List.eq_of_mem_replicate hc]
  decide

theorem isPrintable_indented {cs : List Char} (h : ∀ c ∈ cs, isPrintable c = true) (indent : Nat)
    (startsLine : Bool) : ∀ c ∈ indented indent startsLine cs, isPrintable c = true := by
  induction cs generalizing startsLine with
  | nil => exact fun c hc => nomatch hc
  | cons c cs ih =>
      obtain ⟨hc, hcs⟩ := List.forall_mem_cons.mp h
      rw [indented]
      split
      · exact List.forall_mem_cons.mpr ⟨hc, ih hcs true⟩
      · split
        · exact List.forall_mem_append.mpr
            ⟨isPrintable_spaces indent, List.forall_mem_cons.mpr ⟨hc, ih hcs false⟩⟩
        · exact List.forall_mem_cons.mpr ⟨hc, ih hcs false⟩

theorem isPrintable_singleBody {cs : List Char} (h : ∀ c ∈ cs, isPrintable c = true) (indent : Nat)
    (startsLine : Bool) : ∀ c ∈ singleBody indent startsLine cs, isPrintable c = true := by
  have hstart (startsLine : Bool) :
      ∀ c ∈ if startsLine then spaces indent else [], isPrintable c = true := by
    cases startsLine
    · exact fun c hc => nomatch hc
    · exact isPrintable_spaces indent
  induction cs generalizing startsLine with
  | nil => rw [singleBody]; exact hstart startsLine
  | cons c cs ih =>
      obtain ⟨hc, hcs⟩ := List.forall_mem_cons.mp h
      have hchar : ∀ d ∈ if c = '\'' then ['\'', '\''] else [c], isPrintable d = true := by
        split
        · exact List.all_eq_true.mp (by decide)
        · exact fun d hd => List.mem_singleton.mp hd ▸ hc
      rw [singleBody]
      split
      · exact List.forall_mem_cons.mpr ⟨hc, ih hcs true⟩
      · simp only [List.forall_mem_append]
        exact ⟨⟨hstart startsLine, hchar⟩, ih hcs false⟩

theorem isPrintable_digits (width n : Nat) :
    ∀ c ∈ Hex.digits Hex.upper width n, isPrintable c = true := by
  have hdigit : ∀ d < 16, isPrintable (Hex.upper d) = true := by decide
  have hupper : Hex.upper n = Hex.upper (n % 16) := by simp only [Hex.upper, Nat.mod_mod]
  induction width generalizing n with
  | zero => exact List.forall_mem_nil _
  | succ width ih =>
      refine List.forall_mem_append.mpr ⟨ih (n / 16) (by simp only [Hex.upper, Nat.mod_mod]), ?_⟩
      intro c hc
      rw [List.mem_singleton.mp hc, hupper]
      exact hdigit (n % 16) (Nat.mod_lt n (by decide))

theorem isPrintable_doubleChar (c : Char) : ∀ d ∈ doubleChar c, isPrintable d = true := by
  have hmark {d : Char} {ds : List Char} (hd : isPrintable d = true)
      (hds : ∀ e ∈ ds, isPrintable e = true) : ∀ e ∈ '\\' :: d :: ds, isPrintable e = true :=
    List.forall_mem_cons.mpr ⟨by decide, List.forall_mem_cons.mpr ⟨hd, hds⟩⟩
  unfold doubleChar
  split
  case h_15 =>
    split
    · rename_i hc
      exact fun d hd => List.mem_singleton.mp hd ▸ hc
    · split
      · exact hmark (by decide) (isPrintable_digits 2 c.toNat)
      · exact hmark (by decide) (isPrintable_digits 4 c.toNat)
  all_goals exact List.all_eq_true.mp (by decide)

/-- 書きかたの選びかた。選ばれた書きかたで書けることと、紛れる語でないことが分かる。 -/
theorem styleOf_cases (s : String) :
    styleOf s = .literal ∧ allowsLiteral s.toList = true ∨
      styleOf s = .plain ∧ isAmbiguous s = false ∧ allowsPlain s.toList = true ∨
      styleOf s = .single ∧ allowsSingle s.toList = true ∧ '\n' ∉ s.toList ∨
      styleOf s = .double := by
  simp only [styleOf]
  by_cases hnewline : s.toList.contains '\n' = true
  · by_cases hliteral : allowsLiteral s.toList = true
    · exact .inl ⟨by rw [if_pos hnewline, if_pos hliteral], hliteral⟩
    · exact .inr <| .inr <| .inr <| by rw [if_pos hnewline, if_neg hliteral]
  · by_cases hplain : (!isAmbiguous s && allowsPlain s.toList) = true
    · rw [if_neg hnewline, if_pos hplain]
      rw [Bool.and_eq_true, Bool.not_eq_true'] at hplain
      exact .inr <| .inl ⟨rfl, hplain⟩
    · rw [if_neg hnewline, if_neg hplain]
      by_cases hsingle : allowsSingle s.toList = true
      · exact .inr <| .inr <| .inl ⟨if_pos hsingle, hsingle, by simpa using hnewline⟩
      · exact .inr <| .inr <| .inr <| if_neg hsingle

theorem isPrintable_literal {cs : List Char} (h : ∀ c ∈ cs, isPrintable c = true) (indent : Nat) :
    ∀ c ∈ literal indent cs, isPrintable c = true := by
  have hchomp : ∀ c ∈ chompMark cs, isPrintable c = true := by
    obtain ⟨-, -, chomp, -, -, -, hmark, -⟩ := exists_chompMark_eq cs
    rw [hmark]
    cases chomp <;> exact List.all_eq_true.mp (by decide)
  simp only [literal, List.cons_append, List.forall_mem_cons, List.forall_mem_append]
  refine ⟨by decide, ⟨⟨?_, hchomp⟩, by decide, isPrintable_indented h indent true⟩, ?_⟩
  · split <;> exact List.all_eq_true.mp (by decide)
  · split <;> exact List.all_eq_true.mp (by decide)

theorem isPrintable_textLines (indent : Nat) (s : String) :
    ∀ c ∈ textLines indent s, isPrintable c = true := by
  have hbody {cs : List Char} (hneeds : needsEscape cs = false) := isPrintable_of_needsEscape hneeds
  obtain ⟨hstyle, h⟩ | ⟨hstyle, -, h⟩ | ⟨hstyle, h, -⟩ | hstyle := styleOf_cases s
  all_goals rw [textLines, hstyle]
  · exact isPrintable_literal (hbody (needsEscape_of_allowsLiteral h)) indent
  · simp only [allowsPlain, Bool.and_eq_true, Bool.not_eq_true'] at h
    exact List.forall_mem_append.mpr ⟨hbody h.1.1.1.1.1.1.1, List.all_eq_true.mp (by decide)⟩
  · simp only [allowsSingle, Bool.and_eq_true, Bool.not_eq_true'] at h
    exact List.forall_mem_cons.mpr ⟨by decide, List.forall_mem_append.mpr
      ⟨isPrintable_singleBody (hbody h.1) indent false, List.all_eq_true.mp (by decide)⟩⟩
  · refine List.forall_mem_cons.mpr ⟨by decide, List.forall_mem_append.mpr
      ⟨fun c hc => ?_, List.all_eq_true.mp (by decide)⟩⟩
    obtain ⟨d, -, hd⟩ := List.mem_flatMap.mp hc
    exact isPrintable_doubleChar d c hd

theorem exists_textLines_eq_cons (indent : Nat) (s : String) :
    ∃ c cs, textLines indent s = c :: cs ∧ isVisible c = true := by
  obtain ⟨hstyle, -⟩ | ⟨hstyle, -, h⟩ | ⟨hstyle, -⟩ | hstyle := styleOf_cases s
  all_goals rw [textLines, hstyle]
  · exact ⟨'|', _, rfl, rfl⟩
  · obtain ⟨c, cs, hcs, hc⟩ := exists_cons_of_allowsPlain h
    exact ⟨c, cs ++ ['\n'], by rw [hcs, List.cons_append], hc⟩
  · exact ⟨'\'', _, rfl, rfl⟩
  · exact ⟨'"', _, rfl, rfl⟩

end SpecLineage.Yaml
