import SpecLineage.Proofs.Json.Node

/-!
# 字句の読み取り

どの文字の列も、書かれた字句を順に読み取った列になる。読めない所に来たら、その誤りを表す字句で列が終わる。誤りの字句を持たない
列は、文字の列の全体を書かれた字句に分ける。
-/

namespace SpecLineage.Json

/-- 読めない字句か。 -/
def Token.isBroken : Token → Bool
  | .brokenText _ _ | .broken _ _ => true
  | _ => false

/-- 文字の列 `cs` の頭を、`spell` の一つとして書かれたものに読み取るか、読めない字句に読み取る。 -/
def Scans {α : Type} (spell : α → List Char) (token : α → Token) (cs : List Char)
    (r : Token × List Char) : Prop :=
  (∃ a, r.1 = token a ∧ cs = spell a ++ r.2) ∨ r.1.isBroken = true ∧ r.2 = []

/-! ## 文字列 -/

theorem mem_of_escape?_eq {c e : Char} (h : escape? c = some e) :
    c ∈ ['"', '\\', '/', 'b', 'f', 'n', 'r', 't'] := by
  unfold escape? at h
  split at h <;> first | decide | cases h

/-- 閉じる引用符まで読めた文字の列は、文字列の書きかたである。 -/
theorem exists_quotation {cs rest : List Char} (h : (pieces cs).2 = .ok rest) :
    ∃ q : Quotation, q.map Glyph.piece = (pieces cs).1 ∧
      cs = q.flatMap Glyph.spell ++ '"' :: rest := by
  fun_induction pieces cs with
  | case2 => cases h; exact ⟨[], rfl, rfl⟩
  | case3 a b c d cs n hn r ih =>
      obtain ⟨q, hq, rfl⟩ := ih h
      refine ⟨.unit a b c d (hn ▸ rfl) :: q, ?_, rfl⟩
      simp only [List.map_cons, hq, Glyph.piece, hn, Option.get_some]
      rfl
  | case7 c cs _ _ e he r ih =>
      obtain ⟨q, hq, rfl⟩ := ih h
      refine ⟨.escaped c (mem_of_escape?_eq he) :: q, ?_, rfl⟩
      rw [List.map_cons, hq, Glyph.piece, he, Option.getD_some]
  | case10 c cs hquote _ _ hend hslash hcontrol r ih =>
      obtain ⟨q, hq, rfl⟩ := ih h
      refine ⟨.plain c ⟨hquote, fun hc => ?_, hcontrol⟩ :: q, ?_, rfl⟩
      · obtain ⟨c', cs', hcs⟩ := List.exists_cons_of_ne_nil (hend hc)
        exact hslash c' cs' hc hcs
      · rw [List.map_cons, hq, Glyph.piece]
  | _ => cases h

theorem textToken_scans (cs : List Char) :
    Scans Quotation.spell (fun q => .text q.string?) ('"' :: cs) (textToken cs) := by
  rw [textToken]
  rcases hpieces : pieces cs with ⟨ps, fault | rest⟩
  · exact .inr ⟨rfl, rfl⟩
  · obtain ⟨q, hq, hcs⟩ := exists_quotation (congrArg Prod.snd hpieces)
    rw [hpieces] at hq
    refine .inl ⟨q, ?_, ?_⟩
    · exact congrArg (fun ps => Token.text ((decode ps).map String.ofList)) hq.symm
    · change '"' :: cs = '"' :: (q.flatMap Glyph.spell ++ ['"']) ++ rest
      rw [hcs, List.cons_append, List.append_assoc, List.singleton_append]

/-! ## 数 -/

theorem exists_digits {cs : List Char} (h : (cs.takeWhile Char.isDigit).isEmpty = false) :
    ∃ ds : Digits, cs.takeWhile Char.isDigit = ds.chars ∧
      ds.chars ++ cs.dropWhile Char.isDigit = cs :=
  ⟨⟨_, List.isEmpty_eq_false_iff.mp h, fun _ hc => List.mem_takeWhile_imp hc⟩, rfl,
    List.takeWhile_append_dropWhile⟩

section Number

variable (negative : Bool) (whole : List Char)

theorem exponentDigits_scans (fraction : Option (List Char)) {mark : Char}
    (hmark : mark = 'e' ∨ mark = 'E') (sign : Option Bool) (cs : List Char) :
    Scans Figure.spellExponent
      (fun e => .number (numeral negative whole fraction (e.map Exponent.reading)))
      (mark :: (Exponent.spellSign sign ++ cs))
      (if (cs.takeWhile Char.isDigit).isEmpty then brokenNumber (cs.dropWhile Char.isDigit)
        else (.number (numeral negative whole fraction
          (some (sign == some true, cs.takeWhile Char.isDigit))), cs.dropWhile Char.isDigit)) := by
  split
  · exact .inr ⟨rfl, rfl⟩
  · rename_i hdigits
    obtain ⟨ds, hds, hcs⟩ := exists_digits (Bool.eq_false_iff.mpr hdigits)
    refine .inl ⟨some ⟨mark, hmark, sign, ds⟩, ?_, ?_⟩
    · rw [hds]
      rfl
    · rw [Figure.spellExponent, Exponent.spell, List.cons_append, List.append_assoc, hcs]

theorem exponentToken_scans (fraction : Option (List Char)) (cs : List Char) :
    Scans Figure.spellExponent
      (fun e => .number (numeral negative whole fraction (e.map Exponent.reading))) cs
      (exponentToken negative whole fraction cs) := by
  have hnone : Scans Figure.spellExponent
      (fun e => .number (numeral negative whole fraction (e.map Exponent.reading))) cs
      (.number (numeral negative whole fraction none), cs) := .inl ⟨none, rfl, rfl⟩
  cases cs with
  | nil => exact hnone
  | cons c cs =>
      have hdigits := fun hmark : c = 'e' ∨ c = 'E' =>
        exponentDigits_scans negative whole fraction hmark
      unfold exponentToken
      dsimp only
      split
      · rename_i hmark
        split
        · exact hdigits hmark (some false) _
        · exact hdigits hmark (some true) _
        · exact hdigits hmark none _
      · exact hnone

theorem fractionToken_scans (cs : List Char) :
    Scans (fun p : Option Digits × Option Exponent =>
        Figure.spellFraction p.1 ++ Figure.spellExponent p.2)
      (fun p => .number (numeral negative whole (p.1.map Digits.chars)
        (p.2.map Exponent.reading))) cs (fractionToken negative whole cs) := by
  unfold fractionToken
  split
  · rename_i cs
    dsimp only
    split
    · exact .inr ⟨rfl, rfl⟩
    · rename_i hdigits
      obtain ⟨ds, hds, hcs⟩ := exists_digits (Bool.eq_false_iff.mpr hdigits)
      rw [hds]
      rcases exponentToken_scans negative whole (some ds.chars) (cs.dropWhile Char.isDigit) with
        ⟨e, htoken, hspell⟩ | hbroken
      · refine .inl ⟨(some ds, e), htoken, ?_⟩
        change '.' :: cs = '.' :: ds.chars ++ Figure.spellExponent e ++ _
        rw [List.cons_append, List.cons_append, List.append_assoc, ← hspell, hcs]
      · exact .inr hbroken
  · rcases exponentToken_scans negative whole none cs with ⟨e, htoken, hspell⟩ | hbroken
    · exact .inl ⟨(none, e), htoken, hspell⟩
    · exact .inr hbroken

end Number

theorem wholeToken_scans (negative : Bool) (cs : List Char) :
    Scans Figure.spell (fun f => .number f.numeral)
      ((if negative then ['-'] else []) ++ cs) (wholeToken negative cs) := by
  have hwhole : ∀ (ds : Digits), cs.takeWhile Char.isDigit = ds.chars →
      (ds.chars.head? = some '0' → ds.chars = ['0']) →
      Scans Figure.spell (fun f => .number f.numeral) ((if negative then ['-'] else []) ++ cs)
        (fractionToken negative ds.chars (cs.dropWhile Char.isDigit)) := by
    intro ds hds hlead
    rcases fractionToken_scans negative ds.chars (cs.dropWhile Char.isDigit) with
      ⟨⟨fraction, exponent⟩, htoken, hspell⟩ | hbroken
    · refine .inl ⟨⟨negative, ds, hlead, fraction, exponent⟩, htoken, ?_⟩
      rw [Figure.spell, List.append_assoc, List.append_assoc, ← hspell, ← hds,
        List.takeWhile_append_dropWhile]
    · exact .inr hbroken
  have hisDigit : ∀ c ∈ cs.takeWhile Char.isDigit, c.isDigit = true :=
    fun c hc => List.mem_takeWhile_imp hc
  generalize (if negative then ['-'] else []) ++ cs = input at hwhole ⊢
  rw [wholeToken]
  split
  · exact .inr ⟨rfl, rfl⟩
  · rename_i hzero
    rw [hzero] at hisDigit
    exact hwhole ⟨_, List.cons_ne_nil _ _, hisDigit⟩ hzero fun _ => rfl
  · exact .inr ⟨rfl, rfl⟩
  · rename_i hnil _ hlead
    refine hwhole ⟨_, hnil, hisDigit⟩ rfl fun hzero => ?_
    obtain ⟨tail, htail⟩ := List.head?_eq_some_iff.mp hzero
    exact absurd htail (hlead tail)

/-! ## 語 -/

theorem wordToken_scans (t : Token) (es cs : List Char) :
    Scans (fun _ : Unit => es) (fun _ => t) cs (wordToken t es cs) := by
  fun_induction wordToken t es cs with
  | case1 => exact .inl ⟨(), rfl, rfl⟩
  | case3 es c cs ih =>
      rcases ih with ⟨_, htoken, hspell⟩ | hbroken
      · exact .inl ⟨(), htoken, congrArg (_ :: ·) hspell⟩
      · exact .inr hbroken
  | _ => exact .inr ⟨rfl, rfl⟩

/-! ## 字句の列 -/

/-- 前に `pre` をつけて、字句 `l` の読み取りとする。 -/
theorem Scans.lexeme {α : Type} {spell : α → List Char} {token : α → Token} {cs : List Char}
    {r : Token × List Char} (h : Scans spell token cs r) (pre : List Char) (l : α → Lexeme)
    (htoken : ∀ a, token a = (l a).token) (hspell : ∀ a, pre ++ spell a = (l a).spell) :
    Scans Lexeme.spell Lexeme.token (pre ++ cs) r := by
  rcases h with ⟨a, ha, rfl⟩ | hbroken
  · refine .inl ⟨l a, ha.trans (htoken a), ?_⟩
    rw [← hspell, List.append_assoc]
  · exact .inr hbroken

theorem token_scans (c : Char) (cs : List Char) :
    Scans Lexeme.spell Lexeme.token (c :: cs) (token c cs) := by
  unfold token
  split
  · exact .inl ⟨.openList, rfl, rfl⟩
  · exact .inl ⟨.closeList, rfl, rfl⟩
  · exact .inl ⟨.openRecord, rfl, rfl⟩
  · exact .inl ⟨.closeRecord, rfl, rfl⟩
  · exact .inl ⟨.comma, rfl, rfl⟩
  · exact .inl ⟨.colon, rfl, rfl⟩
  · exact (textToken_scans cs).lexeme [] .text (fun _ => rfl) fun _ => rfl
  · exact (wordToken_scans _ _ cs).lexeme ['n'] (fun _ => .null) (fun _ => rfl) fun _ => rfl
  · exact (wordToken_scans _ _ cs).lexeme ['t'] (fun _ => .flag true) (fun _ => rfl) fun _ => rfl
  · exact (wordToken_scans _ _ cs).lexeme ['f'] (fun _ => .flag false) (fun _ => rfl) fun _ => rfl
  · exact (wholeToken_scans true cs).lexeme [] .number (fun _ => rfl) fun _ => rfl
  · split
    · exact (wholeToken_scans false (c :: cs)).lexeme [] .number (fun _ => rfl) fun _ => rfl
    · exact .inr ⟨rfl, rfl⟩

/-- 字句の列は、書かれた字句の列と、たかだか一つの読めない字句からなる。読めない字句がなければ、文字の列の全体が、書かれた
字句の間に空白をはさんだものである。 -/
theorem exists_tokens_eq (cs : List Char) :
    ∃ ls tail, tokens cs = ls.map Lexeme.token ++ tail ∧ (∀ t ∈ tail, t.isBroken = true) ∧
      (tail = [] → Spaced ls cs) := by
  fun_induction tokens cs with
  | case1 => exact ⟨[], [], rfl, List.forall_mem_nil _, fun _ => .nil⟩
  | case2 c cs hblank ih =>
      obtain ⟨ls, tail, htokens, hbroken, hspaced⟩ := ih
      exact ⟨ls, tail, htokens, hbroken, fun htail => .blank hblank (hspaced htail)⟩
  | case3 c cs hblank hlength ih =>
      obtain ⟨ls, tail, htokens, hbroken, hspaced⟩ := ih
      rcases token_scans c cs with ⟨l, hl, hcs⟩ | ⟨ht, hrest⟩
      · refine ⟨l :: ls, tail, ?_, hbroken, fun htail => ?_⟩
        · rw [hl, htokens, List.map_cons, List.cons_append]
        · rw [hcs]
          exact .lexeme l (hspaced htail)
      · refine ⟨[], [(token c cs).1], ?_, ?_, fun htail => absurd htail (List.cons_ne_nil _ _)⟩
        · rw [hrest, tokens, List.map_nil, List.nil_append]
        · exact List.forall_mem_singleton.mpr ht

end SpecLineage.Json
