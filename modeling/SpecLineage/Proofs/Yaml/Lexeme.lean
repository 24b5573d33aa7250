import SpecLineage.Proofs.Text.Digits
import SpecLineage.Proofs.Yaml.Scan

/-!
# 書いた YAML の字句

木を書いた文字列は、木から決まる字句の列に読める。字下げを閉じる字句は次の行の頭で初めて現れるので、値を書いた行の
次の行の頭に着くまでを一つの歩みとし、木の構成に沿って歩みをつなぐ。
-/

namespace SpecLineage.Yaml

mutual
/-- 木を書いた文字列の表す字句。記録の値である並びは、鍵と同じ字下げに書く。 -/
def lexemes : Tree → List Token
  | .text s => [.scalar (styleOf s) s]
  | .flag b => [.scalar .plain (toString b)]
  | .natural n => [.scalar .plain (toString n)]
  | .list [] => [.openList, .closeList]
  | .list (t :: ts) => .entry :: (lexemes t ++ itemLexemes ts)
  | .record [] => [.openRecord, .closeRecord]
  | .record ((key, t) :: ms) =>
    .recordStart :: .key :: .scalar .plain key :: .value ::
      (lexemes t ++ (memberLexemes ms ++ [.blockEnd]))

/-- 並びの値の字句。 -/
def itemLexemes : List Tree → List Token
  | [] => []
  | t :: ts => .entry :: (lexemes t ++ itemLexemes ts)

/-- 項目の字句。 -/
def memberLexemes : List (String × Tree) → List Token
  | [] => []
  | (key, t) :: ms => .key :: .scalar .plain key :: .value :: (lexemes t ++ memberLexemes ms)
end

theorem lexemes_record (m : String × Tree) (ms : List (String × Tree)) :
    lexemes (.record (m :: ms)) = .recordStart :: (memberLexemes (m :: ms) ++ [.blockEnd]) := by
  simp only [lexemes, memberLexemes, List.cons_append, List.append_assoc]

/-! ## 語 -/

theorem isWordChar_flag (b : Bool) : (toString b).toList ≠ [] ∧
    ∀ c ∈ (toString b).toList, IsWordChar c := by
  cases b <;> exact ⟨by decide, fun c hc => .inl (List.all_eq_true.mp
    (show List.all _ Char.isAlphanum = true by decide) c hc)⟩

theorem isWordChar_natural (n : Nat) : (toString n).toList ≠ [] ∧
    ∀ c ∈ (toString n).toList, IsWordChar c := by
  rw [Nat.toString_eq_ofList_toDigits, String.toList_ofList]
  refine ⟨Nat.toDigits_ne_nil, fun c hc => .inl ?_⟩
  rw [Char.isAlphanum, isDigit_of_mem_toDigits hc, Bool.or_true]

theorem isWordChar_name {name : String} (h : isSimpleName name = true) : name.toList ≠ [] ∧
    name.toList.length ≤ 256 ∧ ∀ c ∈ name.toList, IsWordChar c := by
  obtain ⟨hne, hlength, hchars⟩ := isSimpleName_iff.mp h
  exact ⟨hne, hlength, fun c hc => (hchars c hc).imp_left isAlphanum_of_isLower⟩

theorem exists_name_eq_cons {name : String} (h : isSimpleName name = true) :
    ∃ c cs, name.toList = c :: cs ∧ isVisible c = true := by
  obtain ⟨hne, -, hchars⟩ := isWordChar_name h
  obtain ⟨c, cs, hname⟩ := List.exists_cons_of_ne_nil hne
  exact ⟨c, cs, hname, (hchars c (hname ▸ List.mem_cons_self)).isVisible⟩

/-! ## 木 -/

namespace Scan

variable {s u : Scan} {ts : List Token} {indent : Nat} {stack : List Nat} {text : List Char}

/-- 次の行の頭に着いて、同じ字下げの字句の前にいる。 -/
theorem Lands.stands {c : Char} {cs : List Char}
    (h : s.Lands ts indent stack (spaces indent ++ c :: cs)) (hc : isVisible c = true) :
    ∃ s' u, Steps s s' ∧ s'.settle = some u ∧
      u.Stands ts (indent :: stack) indent true (c :: cs) := by
  obtain ⟨s', u, hsteps, hsettle, hu⟩ := h indent _ rfl (.inr ⟨c, cs, rfl, hc⟩) (Nat.le_refl _)
  obtain ⟨hnone, hsame⟩ := closings_eq_nil indent (indent :: stack) fun i hi =>
    Nat.le_of_eq (Option.some.inj hi).symm
  rw [hnone, hsame] at hu
  exact ⟨s', u, hsteps, hsettle, hu⟩

theorem all_isScalar_or {ts : List Tree}
    (h : ts.all Tree.isScalar = true ∨ ts.all Toml.isRecord = true) :
    ∀ t ∈ ts, (t.isScalar || Toml.isRecord t) = true := fun t ht => by
  rw [Bool.or_eq_true]
  exact h.imp (List.all_eq_true.mp · t ht) (List.all_eq_true.mp · t ht)

theorem lands_emptyList {n : Nat} {keyAllowed : Bool} (hn : indent < n)
    (h : s.Stands ts (indent :: stack) n keyAllowed (' ' :: '[' :: ']' :: '\n' :: text)) :
    s.Lands (.closeList :: .openList :: ts) indent stack text :=
  lands_brackets (by decide) (by decide)
    (fun t cs ht => by rw [next, if_neg (by simp [ht]), if_neg (by simp [ht])])
    (fun t cs ht => by rw [next, if_neg (by simp [ht]), if_neg (by simp [ht])]) h hn

theorem lands_emptyRecord {n : Nat} {keyAllowed : Bool} (hn : indent < n)
    (h : s.Stands ts (indent :: stack) n keyAllowed (' ' :: '\x7b' :: '\x7d' :: '\n' :: text)) :
    s.Lands (.closeRecord :: .openRecord :: ts) indent stack text :=
  lands_brackets (by decide) (by decide)
    (fun t cs ht => by rw [next, if_neg (by simp [ht]), if_neg (by simp [ht])])
    (fun t cs ht => by rw [next, if_neg (by simp [ht]), if_neg (by simp [ht])]) h hn

theorem isSpaced_memberValue (indent : Nat) (t : Tree) (text : List Char) :
    isSpaced (memberValue indent t ++ text) = true := by
  rcases t with str | b | n | (_ | ⟨t, ts⟩) | (_ | ⟨⟨key, t⟩, ms⟩) <;> rw [memberValue] <;> rfl

theorem resumes_name {name : String} (h : isSimpleName name = true) (k : Nat) (rest : List Char) :
    Resumes k (name.toList ++ rest) := by
  obtain ⟨c, cs, hname, hc⟩ := exists_name_eq_cons h
  exact .inr ⟨c, cs ++ rest, by rw [hname, List.cons_append], hc⟩

theorem exists_itemValue_eq_cons (indent : Nat) (t : Tree) :
    ∃ v, itemValue indent t = ' ' :: v := by
  rcases t with str | b | n | (_ | ⟨t, ts⟩) | (_ | ⟨⟨key, t⟩, ms⟩) <;> rw [itemValue] <;>
    exact ⟨_, rfl⟩

/-- 鍵と値を、次の行の頭まで読む。 -/
theorem lands_entry {key : String} {t : Tree} {width : Nat} {indents : List Nat}
    {opening : List Token}
    (hvalue : ∀ {s : Scan} {ts : List Token} {n : Nat}, width < n →
      s.Stands ts (width :: stack) n false (memberValue width t ++ text) →
        s.Lands ((lexemes t).reverse ++ ts) width stack text)
    (hkey : isSimpleName key = true) (hsettle : s.settle = some u)
    (hu : u.Stands ts indents width true (key.toList ++ ':' :: (memberValue width t ++ text)))
    (hopens : Opens .recordStart width indents opening (width :: stack)) :
    s.Lands ((lexemes t).reverse ++ .value :: .scalar .plain key :: .key :: (opening ++ ts))
      width stack text := by
  obtain ⟨hne, hlength, hchars⟩ := isWordChar_name hkey
  obtain ⟨s', hsteps, hs'⟩ :=
    steps_key hsettle hu hopens hne hlength hchars (isSpaced_memberValue width t text)
  rw [String.ofList_toList] at hs'
  exact .of_steps hsteps (hvalue (by omega) hs')

theorem lands_record {key : String} {t : Tree} {ms : List (String × Tree)}
    (hvalue : ∀ {s : Scan} {ts : List Token} {n : Nat} {text : List Char}, indent + 2 < n →
      s.Stands ts ((indent + 2) :: indent :: stack) n false (memberValue (indent + 2) t ++ text) →
        s.Lands ((lexemes t).reverse ++ ts) (indent + 2) (indent :: stack) text)
    (hmembers : ∀ {s : Scan} {ts : List Token},
      s.Lands ts (indent + 2) (indent :: stack) (restMembers (indent + 2) ms ++ text) →
        s.Lands ((memberLexemes ms).reverse ++ ts) (indent + 2) (indent :: stack) text)
    (hkey : isSimpleName key = true) (hsettle : s.settle = some u)
    (hu : u.Stands ts (indent :: stack) (indent + 2) true
      (key.toList ++ ':' :: (memberValue (indent + 2) t ++ (restMembers (indent + 2) ms ++ text)))) :
    s.Lands ((lexemes (.record ((key, t) :: ms))).reverse ++ ts) indent stack text := by
  have hopens : Opens .recordStart (indent + 2) (indent :: stack) [.recordStart]
      ((indent + 2) :: indent :: stack) := .deeper fun i hi => by
    rw [← Option.some.inj hi]
    omega
  have hrecord := (hmembers (lands_entry hvalue hkey hsettle hu hopens)).close
  simpa only [lexemes, List.reverse_cons, List.reverse_append, List.reverse_nil, List.append_assoc,
    List.nil_append, List.singleton_append, List.cons_append] using hrecord

mutual
/-- 鍵の後の値を、次の行の頭まで読む。 -/
theorem lands_member : ∀ (t : Tree), t.Regular → ∀ {s : Scan} {ts : List Token} {indent n : Nat}
    {stack : List Nat} {text : List Char} {keyAllowed : Bool}, indent < n →
    s.Stands ts (indent :: stack) n keyAllowed (memberValue indent t ++ text) →
      s.Lands ((lexemes t).reverse ++ ts) indent stack text
  | .text str, _, s, ts, indent, n, stack, text, keyAllowed, hn, h => by
      rw [memberValue] at h
      rw [lexemes]
      exact lands_text h hn
  | .flag b, _, s, ts, indent, n, stack, text, keyAllowed, hn, h => by
      obtain ⟨hne, hchars⟩ := isWordChar_flag b
      simp only [memberValue, List.cons_append, List.append_assoc, List.nil_append] at h
      have hlands := lands_word h hn hne hchars
      rwa [String.ofList_toList] at hlands
  | .natural m, _, s, ts, indent, n, stack, text, keyAllowed, hn, h => by
      obtain ⟨hne, hchars⟩ := isWordChar_natural m
      simp only [memberValue, List.cons_append, List.append_assoc, List.nil_append] at h
      have hlands := lands_word h hn hne hchars
      rwa [String.ofList_toList] at hlands
  | .list [], _, s, ts, indent, n, stack, text, keyAllowed, hn, h => by
      rw [memberValue] at h
      exact lands_emptyList hn h
  | .list (t :: items), hregular, s, ts, indent, n, stack, text, keyAllowed, hn, h => by
      rw [Tree.Regular] at hregular
      have hline : s.Stands ts (indent :: stack) n keyAllowed
          ('\n' :: (restItems indent (t :: items) ++ text)) := by
        simpa only [memberValue, restItems, List.append_assoc, List.cons_append] using h
      exact lands_items (t :: items) hregular.2 (all_isScalar_or hregular.1)
        ((hline.spent 0).lands (Nat.zero_le _))
  | .record [], _, s, ts, indent, n, stack, text, keyAllowed, hn, h => by
      rw [memberValue] at h
      exact lands_emptyRecord hn h
  | .record ((key, t) :: ms), hregular, s, ts, indent, n, stack, text, keyAllowed, hn, h => by
      rw [Tree.Regular, Tree.RegularMembers] at hregular
      obtain ⟨-, hkey, ht, hms⟩ := hregular
      have hline : s.Stands ts (indent :: stack) n keyAllowed
          ('\n' :: (spaces (indent + 2) ++ (key.toList ++ ':' :: (memberValue (indent + 2) t ++
            (restMembers (indent + 2) ms ++ text))))) := by
        simpa only [memberValue, List.append_assoc, List.cons_append] using h
      obtain ⟨u, hsettle, hu⟩ := (hline.spent 0).settle_newline (Nat.zero_le _)
        (resumes_name hkey (indent + 2) _)
      -- 次の行は今の字下げより深いから、閉じる字下げはない。
      obtain ⟨hnone, hsame⟩ := closings_eq_nil (indent + 2) (indent :: stack)
        fun i hi => by rw [← Option.some.inj hi]; omega
      rw [hnone, hsame] at hu
      exact lands_record (lands_member t ht) (lands_members ms hms) hkey hsettle hu

/-- 並びの印の後の値を、次の行の頭まで読む。 -/
theorem lands_item : ∀ (t : Tree), t.Regular → (t.isScalar || Toml.isRecord t) = true →
    ∀ {s : Scan} {ts : List Token} {indent : Nat} {stack : List Nat} {text : List Char},
    s.Stands ts (indent :: stack) (indent + 1) true (itemValue indent t ++ text) →
      s.Lands ((lexemes t).reverse ++ ts) indent stack text
  | .text str, _, _, s, ts, indent, stack, text, h => by
      rw [itemValue] at h
      rw [lexemes]
      exact lands_text h (Nat.lt_succ_self indent)
  | .flag b, _, _, s, ts, indent, stack, text, h => by
      obtain ⟨hne, hchars⟩ := isWordChar_flag b
      simp only [itemValue, List.cons_append, List.append_assoc, List.nil_append] at h
      have hlands := lands_word h (Nat.lt_succ_self indent) hne hchars
      rwa [String.ofList_toList] at hlands
  | .natural m, _, _, s, ts, indent, stack, text, h => by
      obtain ⟨hne, hchars⟩ := isWordChar_natural m
      simp only [itemValue, List.cons_append, List.append_assoc, List.nil_append] at h
      have hlands := lands_word h (Nat.lt_succ_self indent) hne hchars
      rwa [String.ofList_toList] at hlands
  | .record [], _, _, s, ts, indent, stack, text, h => by
      rw [itemValue] at h
      exact lands_emptyRecord (Nat.lt_succ_self indent) h
  | .record ((key, t) :: ms), hregular, _, s, ts, indent, stack, text, h => by
      rw [Tree.Regular, Tree.RegularMembers] at hregular
      obtain ⟨-, hkey, ht, hms⟩ := hregular
      obtain ⟨c, cs, hname, hc⟩ := exists_name_eq_cons hkey
      have hline : s.Stands ts (indent :: stack) (indent + 1) true
          (' ' :: c :: (cs ++ ':' :: (memberValue (indent + 2) t ++
            (restMembers (indent + 2) ms ++ text)))) := by
        simpa only [itemValue, hname, List.append_assoc, List.cons_append] using h
      obtain ⟨u, hsettle, hu⟩ := hline.settle_blank (Nat.le_succ indent) hc
      rw [← List.cons_append, ← hname] at hu
      exact lands_record (lands_member t ht) (lands_members ms hms) hkey hsettle hu
  | .list _, _, hlist, _, _, _, _, _, _ => Bool.noConfusion hlist

theorem lands_items : ∀ (items : List Tree), Tree.RegularItems items →
    (∀ t ∈ items, (t.isScalar || Toml.isRecord t) = true) →
    ∀ {s : Scan} {ts : List Token} {indent : Nat} {stack : List Nat} {text : List Char},
    s.Lands ts indent stack (restItems indent items ++ text) →
      s.Lands ((itemLexemes items).reverse ++ ts) indent stack text
  | [], _, _, s, ts, indent, stack, text, h => h
  | t :: items, hregular, hitems, s, ts, indent, stack, text, h => by
      rw [Tree.RegularItems] at hregular
      obtain ⟨ht, hrest⟩ := List.forall_mem_cons.mp hitems
      simp only [restItems, List.append_assoc, List.cons_append] at h
      obtain ⟨s₁, u, hsteps, hsettle, hu⟩ := h.stands (by decide)
      obtain ⟨v, hv⟩ := exists_itemValue_eq_cons indent t
      rw [hv, List.cons_append] at hu
      -- 鍵と同じ字下げに並べるので、並びの印は字下げを開かない。
      obtain ⟨s₂, hentry, hs₂⟩ := steps_entry hsettle hu (.same rfl)
      have hvalue : s₂.Stands (.entry :: ts) (indent :: stack) (indent + 1) true
          (itemValue indent t ++ (restItems indent items ++ text)) := by rw [hv]; exact hs₂
      have hitem := lands_item t hregular.1 ht hvalue
      have hlands := Lands.of_steps (hsteps.trans hentry) (lands_items items hregular.2 hrest hitem)
      simpa only [itemLexemes, List.reverse_cons, List.reverse_append, List.append_assoc,
        List.nil_append, List.singleton_append] using hlands

theorem lands_members : ∀ (ms : List (String × Tree)), Tree.RegularMembers ms →
    ∀ {s : Scan} {ts : List Token} {width : Nat} {stack : List Nat} {text : List Char},
    s.Lands ts width stack (restMembers width ms ++ text) →
      s.Lands ((memberLexemes ms).reverse ++ ts) width stack text
  | [], _, s, ts, width, stack, text, h => h
  | (key, t) :: ms, hregular, s, ts, width, stack, text, h => by
      rw [Tree.RegularMembers] at hregular
      obtain ⟨hkey, ht, hms⟩ := hregular
      obtain ⟨c, cs, hname, hc⟩ := exists_name_eq_cons hkey
      simp only [restMembers, hname, List.append_assoc, List.cons_append] at h
      obtain ⟨s₁, u, hsteps, hsettle, hu⟩ := h.stands hc
      rw [← List.cons_append, ← hname] at hu
      have hentry := lands_entry (lands_member t ht) hkey hsettle hu (.same rfl)
      have hlands := Lands.of_steps hsteps (lands_members ms hms hentry)
      simpa only [memberLexemes, List.reverse_cons, List.reverse_append, List.append_assoc,
        List.nil_append, List.singleton_append, List.cons_append] using hlands
end

end Scan

/-! ## 書いた文字 -/

theorem isPrintable_word {cs : List Char} (h : ∀ c ∈ cs, IsWordChar c) :
    ∀ c ∈ cs, isPrintable c = true := fun c hc => (h c hc).isPrintable

theorem isPrintable_wordLine {cs : List Char} (h : ∀ c ∈ cs, IsWordChar c) :
    ∀ c ∈ ' ' :: cs ++ ['\n'], isPrintable c = true :=
  List.forall_mem_append.mpr
    ⟨List.forall_mem_cons.mpr ⟨by decide, isPrintable_word h⟩, List.all_eq_true.mp (by decide)⟩

mutual
theorem isPrintable_memberValue : ∀ (t : Tree), t.Regular → ∀ (indent : Nat),
    ∀ c ∈ memberValue indent t, isPrintable c = true
  | .text s, _, indent => by
      rw [memberValue]
      exact List.forall_mem_cons.mpr ⟨by decide, isPrintable_textLines (indent + 2) s⟩
  | .flag b, _, indent => by
      rw [memberValue]
      exact isPrintable_wordLine (isWordChar_flag b).2
  | .natural n, _, indent => by
      rw [memberValue]
      exact isPrintable_wordLine (isWordChar_natural n).2
  | .list [], _, indent => by
      rw [memberValue]
      exact List.all_eq_true.mp (by decide)
  | .list (t :: ts), h, indent => by
      rw [Tree.Regular, Tree.RegularItems] at h
      simp only [memberValue, List.cons_append, List.forall_mem_cons, List.forall_mem_append]
      exact ⟨by decide, ⟨isPrintable_spaces indent, by decide, isPrintable_itemValue t h.2.1 indent⟩,
        isPrintable_restItems ts h.2.2 indent⟩
  | .record [], _, indent => by
      rw [memberValue]
      exact List.all_eq_true.mp (by decide)
  | .record ((key, t) :: ms), h, indent => by
      rw [Tree.Regular, Tree.RegularMembers] at h
      simp only [memberValue, List.cons_append, List.forall_mem_cons, List.forall_mem_append]
      exact ⟨by decide,
        ⟨⟨isPrintable_spaces (indent + 2), isPrintable_word (isWordChar_name h.2.1).2.2⟩,
        by decide, isPrintable_memberValue t h.2.2.1 (indent + 2)⟩,
        isPrintable_restMembers ms h.2.2.2 (indent + 2)⟩

theorem isPrintable_itemValue : ∀ (t : Tree), t.Regular → ∀ (indent : Nat),
    ∀ c ∈ itemValue indent t, isPrintable c = true
  | .text s, _, indent => by
      rw [itemValue]
      exact List.forall_mem_cons.mpr ⟨by decide, isPrintable_textLines (indent + 2) s⟩
  | .flag b, _, indent => by
      rw [itemValue]
      exact isPrintable_wordLine (isWordChar_flag b).2
  | .natural n, _, indent => by
      rw [itemValue]
      exact isPrintable_wordLine (isWordChar_natural n).2
  | .list [], _, indent => by
      rw [itemValue]
      exact List.all_eq_true.mp (by decide)
  | .list (t :: ts), h, indent => by
      rw [Tree.Regular, Tree.RegularItems] at h
      simp only [itemValue, List.forall_mem_append]
      exact ⟨⟨List.all_eq_true.mp (by decide), isPrintable_itemValue t h.2.1 (indent + 2)⟩,
        isPrintable_restItems ts h.2.2 (indent + 2)⟩
  | .record [], _, indent => by
      rw [itemValue]
      exact List.all_eq_true.mp (by decide)
  | .record ((key, t) :: ms), h, indent => by
      rw [Tree.Regular, Tree.RegularMembers] at h
      simp only [itemValue, List.cons_append, List.forall_mem_cons, List.forall_mem_append]
      exact ⟨by decide, ⟨isPrintable_word (isWordChar_name h.2.1).2.2,
        by decide, isPrintable_memberValue t h.2.2.1 (indent + 2)⟩,
        isPrintable_restMembers ms h.2.2.2 (indent + 2)⟩

theorem isPrintable_restItems : ∀ (ts : List Tree), Tree.RegularItems ts → ∀ (indent : Nat),
    ∀ c ∈ restItems indent ts, isPrintable c = true
  | [], _, indent => by rw [restItems]; exact fun c hc => nomatch hc
  | t :: ts, h, indent => by
      rw [Tree.RegularItems] at h
      simp only [restItems, List.forall_mem_cons, List.forall_mem_append]
      exact ⟨⟨isPrintable_spaces indent, by decide, isPrintable_itemValue t h.1 indent⟩,
        isPrintable_restItems ts h.2 indent⟩

theorem isPrintable_restMembers : ∀ (ms : List (String × Tree)), Tree.RegularMembers ms →
    ∀ (indent : Nat), ∀ c ∈ restMembers indent ms, isPrintable c = true
  | [], _, indent => by rw [restMembers]; exact fun c hc => nomatch hc
  | (key, t) :: ms, h, indent => by
      rw [Tree.RegularMembers] at h
      simp only [restMembers, List.forall_mem_cons, List.forall_mem_append]
      exact ⟨⟨⟨isPrintable_spaces indent, isPrintable_word (isWordChar_name h.1).2.2⟩,
        by decide, isPrintable_memberValue t h.2.1 indent⟩,
        isPrintable_restMembers ms h.2.2 indent⟩
end

theorem isAllowed_of_isPrintable {c : Char} (h : isPrintable c = true) : isAllowed c = true := by
  simp only [isPrintable, Bool.or_eq_true, Bool.and_eq_true] at h
  simp only [isAllowed, Bool.or_eq_true, Bool.and_eq_true]
  tauto

/-- 符号にせずに書いた改行は、揃え直さなくてよい。 -/
theorem unifyBreaks_eq_self {cs : List Char} (h : ∀ c ∈ cs, isPrintable c = true) :
    unifyBreaks cs = cs := by
  induction cs with
  | nil => rfl
  | cons c cs ih =>
      obtain ⟨hc, hcs⟩ := List.forall_mem_cons.mp h
      have hne : c ≠ '\r' ∧ c ≠ '\u0085' := by
        constructor <;> rintro rfl <;> exact absurd hc (by decide)
      rw [unifyBreaks.eq_def]
      split
      · rename_i heq; cases heq
      · rename_i heq; exact absurd (List.cons.inj heq).1 hne.1
      · rename_i heq
        obtain ⟨rfl, rfl⟩ := List.cons.inj heq
        rw [ih hcs, if_neg (by simp [hne])]

/-! ## 文書 -/

/-- 文書の終わりで、開いた字下げをすべて閉じる。 -/
theorem Scan.run_of_stands {s u : Scan} {ts : List Token} {indents : List Nat} {column : Nat}
    (hsettle : s.settle = some u) (hu : u.Stands ts indents column true []) {fuel : Nat}
    (hfuel : s.rest.length < fuel) :
    run fuel s = some (List.replicate indents.length Token.blockEnd ++ ts).reverse := by
  obtain _ | fuel := fuel
  · exact absurd hfuel (Nat.not_lt_zero _)
  · have hspan : u.indents.span (fun i => (none : Option Nat).all (· < i)) = (u.indents, []) := by
      have hall : ∀ i ∈ u.indents, (none : Option Nat).all (· < i) = true := fun _ _ => rfl
      rw [List.span_eq_takeWhile_dropWhile, List.takeWhile_eq_self_iff.mpr hall,
        List.dropWhile_eq_nil_iff.mpr hall]
    have hunroll : u.unroll none = { u with
        indents := [], frame := { u.frame with
          since := List.replicate u.indents.length .blockEnd ++ u.frame.since } } := by
      rw [unroll, hu.inFlow, if_neg Bool.false_ne_true, hspan]
      exact foldl_emit u.indents { u with indents := [] }
    rw [run]
    simp only [hsettle, Option.bind_eq_bind, Option.bind_some, hu.rest, hu.inFlow, hunroll, forget,
      Frame.forget, hu.candidate, Bool.false_eq_true, ↓reduceIte, hu.indents]
    rw [← hu.tokens]
    simp only [Frame.tokens, Option.bind_some, Option.pure_def, List.append_assoc]

theorem tokens_write {m : String × Tree} {ms : List (String × Tree)}
    (h : (Tree.record (m :: ms)).Regular) :
    tokens (write (.record (m :: ms))).toList = some (lexemes (.record (m :: ms))) := by
  obtain ⟨key, t⟩ := m
  rw [Tree.Regular] at h
  have hprint := isPrintable_restMembers ((key, t) :: ms) h.2 0
  have hallowed : ((restMembers 0 ((key, t) :: ms)).all isAllowed) = true :=
    List.all_eq_true.mpr fun c hc => isAllowed_of_isPrintable (hprint c hc)
  rw [Tree.RegularMembers] at h
  obtain ⟨-, hkey, ht, hms⟩ := h
  obtain ⟨c, cs, hname, hc⟩ := exists_name_eq_cons hkey
  have htext : restMembers 0 ((key, t) :: ms) =
      key.toList ++ ':' :: (memberValue 0 t ++ (restMembers 0 ms ++ [])) := by
    simp [restMembers, spaces]
  rw [tokens, write, String.toList_ofList, hallowed]
  simp only [unifyBreaks_eq_self hprint, Bool.not_true, Bool.false_eq_true, ↓reduceIte]
  have hstart : restMembers 0 ((key, t) :: ms) =
      c :: (cs ++ ':' :: (memberValue 0 t ++ (restMembers 0 ms ++ []))) := by
    rw [htext, hname, List.cons_append]
  have hsettle : Scan.settle { rest := restMembers 0 ((key, t) :: ms) } =
      some { rest := restMembers 0 ((key, t) :: ms) } :=
    Scan.settle_eq_self hc hstart rfl (Scan.unroll_eq_self rfl (by rintro i ⟨⟩))
  have hopens : Scan.Opens .recordStart 0 [] [.recordStart] [0] := .deeper (by rintro i ⟨⟩)
  have hentry := Scan.lands_entry (Scan.lands_member t ht) hkey hsettle
    ⟨htext, rfl, rfl, rfl, rfl, rfl, rfl⟩ hopens
  obtain ⟨s', u, hsteps, hsettle', hu⟩ :=
    Scan.lands_members ms hms hentry 0 [] rfl (.inl ⟨rfl, rfl⟩) (Nat.le_refl 0)
  rw [Scan.run_of_steps hsteps (fun _ hfuel => Scan.run_of_stands hsettle' hu hfuel) _
    (Nat.lt_succ_self _)]
  change some (([Token.blockEnd] ++ _).reverse) = _
  simp [lexemes, Scan.closings, Frame.tokens]

end SpecLineage.Yaml
