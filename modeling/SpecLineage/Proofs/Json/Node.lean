import Mathlib.Data.List.Chain
import Mathlib.Data.List.TakeWhile
import SpecLineage.Proofs.Json.Lexeme

/-!
# JSON の構文木

JSON の値を、書かれたとおりの構文木で表す。文字列の一片や数は、文法の許す書きかたをそのまま持つ。構文木を書いた文字の列は、
その字句を順に並べ、間と前後に空白をはさんだものである。空白をどうはさんでも、同じ字句の列に読める。
-/

namespace SpecLineage.Json

/-! ## 文字列の書きかた -/

/-- 文字列の一片の書きかた。 -/
inductive Glyph where
  /-- そのまま書いた文字。 -/
  | plain (c : Char) (h : c ≠ '"' ∧ c ≠ '\\' ∧ ¬c < ' ')
  /-- 逆斜線をつけて書いた文字。 -/
  | escaped (c : Char) (h : c ∈ ['"', '\\', '/', 'b', 'f', 'n', 'r', 't'])
  /-- 四つの十六進の数字で書いた、UTF-16 の単位。 -/
  | unit (a b c d : Char) (h : (Hex.ofDigits? [a, b, c, d]).isSome = true)

namespace Glyph

def spell : Glyph → List Char
  | plain c _ => [c]
  | escaped c _ => ['\\', c]
  | unit a b c d _ => ['\\', 'u', a, b, c, d]

/-- 書きかたの表す片。 -/
def piece : Glyph → Piece
  | plain c _ => .char c
  | escaped c _ => .char ((escape? c).getD c)
  | unit a b c d h => .unit ((Hex.ofDigits? [a, b, c, d]).get h)

end Glyph

/-- 文字列の書きかた。引用符の間に並ぶ片を順に持つ。 -/
abbrev Quotation := List Glyph

namespace Quotation

/-- どの文字もそのまま書く。 -/
def plain (s : String)
    (h : s.toList.all (fun c => decide (c ≠ '"' ∧ c ≠ '\\' ∧ ¬c < ' ')) = true) : Quotation :=
  s.toList.pmap Glyph.plain fun c hc => of_decide_eq_true (List.all_eq_true.mp h c hc)

def spell (q : Quotation) : List Char := '"' :: q.flatMap Glyph.spell ++ ['"']

/-- 書きかたの表す文字列。代用対の組み合わせが正しくなければ、表す文字列はない。 -/
def string? (q : Quotation) : Option String := (decode (q.map Glyph.piece)).map String.ofList

end Quotation

/-! ## 数の書きかた -/

/-- 空でない数字の並び。 -/
structure Digits where
  chars : List Char
  ne_nil : chars ≠ []
  isDigit : ∀ c ∈ chars, c.isDigit = true

theorem Digits.exists_eq_cons (ds : Digits) :
    ∃ c cs, ds.chars = c :: cs ∧ c.isDigit = true := by
  obtain ⟨c, cs, hcs⟩ := List.exists_cons_of_ne_nil ds.ne_nil
  exact ⟨c, cs, hcs, ds.isDigit c (hcs ▸ List.mem_cons_self)⟩

/-- 指数の書きかた。 -/
structure Exponent where
  mark : Char
  isMark : mark = 'e' ∨ mark = 'E'
  /-- 符号。負なら `true` とし、書かれていなければ `none` とする。 -/
  sign : Option Bool
  digits : Digits

namespace Exponent

def spellSign : Option Bool → List Char
  | none => []
  | some false => ['+']
  | some true => ['-']

def spell (e : Exponent) : List Char := e.mark :: (spellSign e.sign ++ e.digits.chars)

/-- 負であるかと、数字の並び。 -/
def reading (e : Exponent) : Bool × List Char := (e.sign == some true, e.digits.chars)

end Exponent

/-- 数の書きかた。 -/
structure Figure where
  negative : Bool
  whole : Digits
  /-- 先頭の零には数字が続かない。 -/
  lead : whole.chars.head? = some '0' → whole.chars = ['0']
  fraction : Option Digits
  exponent : Option Exponent

namespace Figure

/-- 一桁の数。 -/
def digit (c : Char) (h : c.isDigit = true) : Figure :=
  ⟨false, ⟨[c], List.cons_ne_nil _ _, List.forall_mem_singleton.mpr h⟩,
    fun hc => congrArg (fun c => [c]) (Option.some.inj hc), none, none⟩

def spellFraction : Option Digits → List Char
  | none => []
  | some ds => '.' :: ds.chars

def spellExponent : Option Exponent → List Char
  | none => []
  | some e => e.spell

def spell (f : Figure) : List Char :=
  (if f.negative then ['-'] else []) ++
    (f.whole.chars ++ (spellFraction f.fraction ++ spellExponent f.exponent))

/-- 書きかたの表す数の読み。 -/
def numeral (f : Figure) : Numeral :=
  Json.numeral f.negative f.whole.chars (f.fraction.map Digits.chars)
    (f.exponent.map Exponent.reading)

end Figure

/-! ## 字句の書きかた -/

/-- 書かれた字句。 -/
inductive Lexeme where
  | openList
  | closeList
  | openRecord
  | closeRecord
  | comma
  | colon
  | null
  | flag (b : Bool)
  | number (f : Figure)
  | text (q : Quotation)

namespace Lexeme

def spell : Lexeme → List Char
  | openList => ['[']
  | closeList => [']']
  | openRecord => ['\x7b']
  | closeRecord => ['\x7d']
  | comma => [',']
  | colon => [':']
  | null => ['n', 'u', 'l', 'l']
  | flag b => (toString b).toList
  | number f => f.spell
  | text q => q.spell

def token : Lexeme → Token
  | openList => .openList
  | closeList => .closeList
  | openRecord => .openRecord
  | closeRecord => .closeRecord
  | comma => .comma
  | colon => .colon
  | null => .null
  | flag b => .flag b
  | number f => .number f.numeral
  | text q => .text q.string?

def isNumber : Lexeme → Bool
  | number _ => true
  | _ => false

end Lexeme

/-- 字句を順に並べ、間と前後に空白をはさんだ文字の列。 -/
inductive Spaced : List Lexeme → List Char → Prop
  | nil : Spaced [] []
  | blank {ls : List Lexeme} {c : Char} {cs : List Char} :
    isBlank c = true → Spaced ls cs → Spaced ls (c :: cs)
  | lexeme {ls : List Lexeme} {cs : List Char} (l : Lexeme) :
    Spaced ls cs → Spaced (l :: ls) (l.spell ++ cs)

theorem Lexeme.exists_spell_eq_cons (l : Lexeme) :
    ∃ c cs, l.spell = c :: cs ∧ isBlank c = false := by
  cases l with
  | flag b => cases b <;> exact ⟨_, _, rfl, by decide⟩
  | number f =>
      obtain ⟨c, cs, hcs, hc⟩ := f.whole.exists_eq_cons
      rw [spell, Figure.spell, hcs]
      cases f.negative with
      | true => exact ⟨_, _, rfl, by decide⟩
      | false => exact ⟨_, _, rfl, isBlank_of_isDigit hc⟩
  | _ => exact ⟨_, _, rfl, by decide⟩

/-- 空白を除きながら、字句が順に書いてあるかを確かめる。 -/
def Lexeme.isSpelled : List Lexeme → List Char → Bool
  | [], cs => (cs.dropWhile isBlank).isEmpty
  | l :: ls, cs =>
    l.spell.isPrefixOf (cs.dropWhile isBlank) &&
      isSpelled ls ((cs.dropWhile isBlank).drop l.spell.length)

theorem Spaced.blanks {ls : List Lexeme} {bs cs : List Char} (hbs : ∀ b ∈ bs, isBlank b = true)
    (h : Spaced ls cs) : Spaced ls (bs ++ cs) := by
  induction bs with
  | nil => exact h
  | cons b bs ih =>
      obtain ⟨hb, hbs⟩ := List.forall_mem_cons.mp hbs
      exact .blank hb (ih hbs)

theorem spaced_iff_isSpelled {ls : List Lexeme} {cs : List Char} :
    Spaced ls cs ↔ Lexeme.isSpelled ls cs = true := by
  constructor
  · intro h
    induction h with
    | nil => rfl
    | @blank ls c cs hc _ ih =>
        cases ls <;> simpa only [Lexeme.isSpelled, List.dropWhile_cons_of_pos hc] using ih
    | lexeme l _ ih =>
        obtain ⟨c, cs', hspell, hc⟩ := l.exists_spell_eq_cons
        simp [Lexeme.isSpelled, hspell, hc, ih]
  · intro h
    have hblank : ∀ b ∈ cs.takeWhile isBlank, isBlank b = true := fun b hb =>
      List.mem_takeWhile_imp hb
    rw [← List.takeWhile_append_dropWhile (p := isBlank) (l := cs)]
    induction ls generalizing cs with
    | nil =>
        rw [List.isEmpty_iff.mp h]
        exact .blanks hblank .nil
    | cons l ls ih =>
        obtain ⟨hspell, hrest⟩ := Bool.and_eq_true_iff.mp h
        obtain ⟨rest, hcs⟩ := List.isPrefixOf_iff_prefix.mp hspell
        rw [← hcs, List.drop_left] at hrest
        rw [← hcs]
        refine .blanks hblank (.lexeme l ?_)
        rw [← List.takeWhile_append_dropWhile (p := isBlank) (l := rest)]
        exact ih hrest fun b hb => List.mem_takeWhile_imp hb

instance (ls : List Lexeme) (cs : List Char) : Decidable (Spaced ls cs) :=
  decidable_of_iff _ spaced_iff_isSpelled.symm

/-! ## 構文木 -/

/-- JSON の構文木。 -/
inductive Node where
  | null
  | flag (b : Bool)
  | number (f : Figure)
  | text (q : Quotation)
  | list (items : List Node)
  | record (members : List (Quotation × Node))

namespace Node

mutual
/-- 構文木の字句。 -/
def lexemes : Node → List Lexeme
  | null => [.null]
  | flag b => [.flag b]
  | number f => [.number f]
  | text q => [.text q]
  | list [] => [.openList, .closeList]
  | list (n :: ns) => .openList :: (n.lexemes ++ itemLexemes ns)
  | record [] => [.openRecord, .closeRecord]
  | record ((key, n) :: ms) =>
    .openRecord :: .text key :: .colon :: (n.lexemes ++ memberLexemes ms)

/-- 二つ目からの値を、並びの終わりまで書いた字句。 -/
def itemLexemes : List Node → List Lexeme
  | [] => [.closeList]
  | n :: ns => .comma :: (n.lexemes ++ itemLexemes ns)

/-- 二つ目からの項目を、記録の終わりまで書いた字句。 -/
def memberLexemes : List (Quotation × Node) → List Lexeme
  | [] => [.closeRecord]
  | (key, n) :: ms => .comma :: .text key :: .colon :: (n.lexemes ++ memberLexemes ms)
end

/-- 開いた括弧の後に並ぶ値の字句。 -/
def bodyLexemes : List Node → List Lexeme
  | [] => [.closeList]
  | n :: ns => n.lexemes ++ itemLexemes ns

/-- 開いた括弧の後に並ぶ項目の字句。 -/
def entryLexemes : List (Quotation × Node) → List Lexeme
  | [] => [.closeRecord]
  | (key, n) :: ms => .text key :: .colon :: (n.lexemes ++ memberLexemes ms)

theorem lexemes_list (ns : List Node) : (list ns).lexemes = .openList :: bodyLexemes ns := by
  cases ns with
  | nil => rfl
  | cons n ns => rw [lexemes, bodyLexemes]

theorem lexemes_record (ms : List (Quotation × Node)) :
    (record ms).lexemes = .openRecord :: entryLexemes ms := by
  cases ms with
  | nil => rfl
  | cons m ms => rw [lexemes, entryLexemes]

/-- 構文木の書きかた。空白はどこにはさんでもよい。 -/
def Spells (n : Node) (s : String) : Prop := Spaced n.lexemes s.toList

instance (n : Node) (s : String) : Decidable (n.Spells s) :=
  inferInstanceAs (Decidable (Spaced n.lexemes s.toList))

end Node

/-! ## 文字列を読む -/

theorem pieces_spell (g : Glyph) (rest : List Char) :
    pieces (g.spell ++ rest) = (g.piece :: (pieces rest).1, (pieces rest).2) := by
  cases g with
  | plain c h =>
      obtain ⟨hquote, hslash, hcontrol⟩ := h
      rw [Glyph.spell, List.singleton_append, pieces, if_neg hcontrol, Glyph.piece] <;> simp_all
  | escaped c h =>
      simp only [List.mem_cons, List.not_mem_nil, or_false] at h
      rcases h with rfl | rfl | rfl | rfl | rfl | rfl | rfl | rfl <;> rfl
  | unit a b c d h =>
      obtain ⟨n, hn⟩ := Option.isSome_iff_exists.mp h
      simp only [Glyph.spell, List.cons_append, List.nil_append, pieces, hn, Glyph.piece,
        Option.get_some]

theorem pieces_flatMap_spell (q : Quotation) (rest : List Char) :
    pieces (q.flatMap Glyph.spell ++ '"' :: rest) = (q.map Glyph.piece, .ok rest) := by
  induction q with
  | nil => rw [List.flatMap_nil, List.nil_append, pieces, List.map_nil]
  | cons g q ih => rw [List.flatMap_cons, List.append_assoc, pieces_spell, ih, List.map_cons]

theorem tokens_spell_text (q : Quotation) (rest : List Char) :
    tokens (q.spell ++ rest) = .text q.string? :: tokens rest := by
  have htoken : token '"' (q.flatMap Glyph.spell ++ '"' :: rest) = (.text q.string?, rest) := by
    change textToken _ = _
    rw [textToken, pieces_flatMap_spell]
    rfl
  rw [Quotation.spell, List.cons_append, List.cons_append, List.append_assoc,
    List.singleton_append, tokens_cons (by decide), htoken]

/-! ## 数を読む -/

theorem Digits.takeWhile_append (ds : Digits) {rest : List Char}
    (h : ∀ c ∈ rest.head?, c.isDigit = false) :
    (ds.chars ++ rest).takeWhile Char.isDigit = ds.chars ∧
      (ds.chars ++ rest).dropWhile Char.isDigit = rest :=
  takeWhile_isDigit_append ds.isDigit h

theorem Digits.isEmpty_chars (ds : Digits) : ds.chars.isEmpty = false :=
  List.isEmpty_eq_false_iff.mpr ds.ne_nil

theorem Delimited.isDigit_head {rest : List Char} (h : Delimited rest) :
    ∀ c ∈ rest.head?, c.isDigit = false := fun c hc => (h c hc).1

variable (negative : Bool) (whole : List Char) {rest : List Char}

theorem exponentToken_of_delimited (fraction : Option (List Char)) (h : Delimited rest) :
    exponentToken negative whole fraction rest =
      (.number (numeral negative whole fraction none), rest) := by
  cases rest with
  | nil => rfl
  | cons c cs =>
      obtain ⟨-, -, hlower, hupper⟩ := h c rfl
      rw [exponentToken.eq_def]
      simp only [hlower, hupper, or_self, ↓reduceIte]

theorem exponentToken_spell (fraction : Option (List Char)) (exponent : Option Exponent)
    (h : Delimited rest) :
    exponentToken negative whole fraction (Figure.spellExponent exponent ++ rest) =
      (.number (numeral negative whole fraction (exponent.map Exponent.reading)), rest) := by
  cases exponent with
  | none => exact exponentToken_of_delimited negative whole fraction h
  | some e =>
      obtain ⟨mark, hmark, sign, ds⟩ := e
      obtain ⟨htake, hdrop⟩ := ds.takeWhile_append h.isDigit_head
      rw [Figure.spellExponent, Exponent.spell, List.cons_append, List.append_assoc,
        exponentToken.eq_def]
      simp only [hmark, ↓reduceIte]
      cases sign with
      | none =>
          -- 符号のない指数は数字で始まるので、符号を読んだ形にはならない。
          obtain ⟨c, cs, hcs, hc⟩ := ds.exists_eq_cons
          have hplus : c ≠ '+' := by rintro rfl; exact absurd hc (by decide)
          have hminus : c ≠ '-' := by rintro rfl; exact absurd hc (by decide)
          simp only [Exponent.spellSign, List.nil_append]
          rw [hcs, List.cons_append] at htake hdrop ⊢
          simp only [List.cons.injEq, hplus, hminus, false_and, imp_self, implies_true, htake,
            hdrop, List.isEmpty_cons, Bool.false_eq_true, ↓reduceIte, Option.map_some,
            Exponent.reading, hcs]
          rfl
      | some b => cases b <;> simp [Exponent.spellSign, htake, hdrop, ds.isEmpty_chars] <;> rfl

/-- 指数の頭は数字でも小数点でもない。指数がなければ、後に続くものの頭である。 -/
theorem head?_spellExponent (exponent : Option Exponent) (h : Delimited rest) :
    ∀ c ∈ (Figure.spellExponent exponent ++ rest).head?, c.isDigit = false ∧ c ≠ '.' := by
  cases exponent with
  | none => exact fun c hc => ⟨(h c hc).1, (h c hc).2.1⟩
  | some e =>
      intro c hc
      cases hc
      rcases e.isMark with hmark | hmark <;> rw [hmark] <;> decide

theorem fractionToken_spell (fraction : Option Digits) (exponent : Option Exponent)
    (h : Delimited rest) :
    fractionToken negative whole
        (Figure.spellFraction fraction ++ (Figure.spellExponent exponent ++ rest)) =
      (.number (numeral negative whole (fraction.map Digits.chars)
        (exponent.map Exponent.reading)), rest) := by
  have hhead := head?_spellExponent exponent h
  have hexponent := fun fraction => exponentToken_spell negative whole fraction exponent h
  cases fraction with
  | none =>
      rw [Figure.spellFraction, List.nil_append, fractionToken, hexponent]
      · rfl
      · intro cs hcs
        exact (hhead '.' (by rw [hcs]; rfl)).2 rfl
  | some ds =>
      obtain ⟨htake, hdrop⟩ := ds.takeWhile_append fun c hc => (hhead c hc).1
      rw [Figure.spellFraction, List.cons_append, fractionToken, htake, hdrop, ds.isEmpty_chars,
        if_neg Bool.false_ne_true, hexponent]
      rfl

theorem isDigit_head_fraction (fraction : Option Digits) (exponent : Option Exponent)
    (h : Delimited rest) :
    ∀ c ∈ (Figure.spellFraction fraction ++ (Figure.spellExponent exponent ++ rest)).head?,
      c.isDigit = false := by
  cases fraction with
  | none => exact fun c hc => (head?_spellExponent exponent h c hc).1
  | some ds => intro c hc; cases hc; decide

theorem wholeToken_spell (f : Figure) (h : Delimited rest) :
    wholeToken negative (f.whole.chars ++ (Figure.spellFraction f.fraction ++
        (Figure.spellExponent f.exponent ++ rest))) =
      (.number (numeral negative f.whole.chars (f.fraction.map Digits.chars)
        (f.exponent.map Exponent.reading)), rest) := by
  obtain ⟨htake, hdrop⟩ := f.whole.takeWhile_append (isDigit_head_fraction f.fraction f.exponent h)
  rw [wholeToken, htake, hdrop]
  split
  · rename_i hnil; exact absurd hnil f.whole.ne_nil
  · rename_i hzero; rw [hzero, fractionToken_spell _ _ _ _ h]
  · rename_i tail hne hzero
    have hlead := f.lead (by rw [hzero]; rfl)
    rw [hzero] at hlead
    exact absurd (List.cons.inj hlead).2 hne
  · rw [fractionToken_spell _ _ _ _ h]

theorem tokens_spell_number (f : Figure) (h : Delimited rest) :
    tokens (f.spell ++ rest) = .number f.numeral :: tokens rest := by
  have hwhole := fun negative => wholeToken_spell negative f h
  rw [Figure.spell, List.append_assoc, List.append_assoc, List.append_assoc, Figure.numeral]
  cases hsign : f.negative with
  | true =>
      have htoken : ∀ cs, token '-' cs = wholeToken true cs := fun _ => rfl
      rw [if_pos rfl, List.singleton_append, tokens_cons (by decide), htoken, hwhole]
  | false =>
      obtain ⟨c, cs, hcs, hc⟩ := f.whole.exists_eq_cons
      have hwhole := hwhole false
      rw [hcs, List.cons_append] at hwhole ⊢
      rw [if_neg Bool.false_ne_true, List.nil_append, tokens_cons (isBlank_of_isDigit hc),
        token_of_isDigit hc, hwhole]

/-! ## 字句を読む -/

/-- 数の字句は、数を延ばさないものが続けば、書いたとおりに読める。ほかの字句は何が続いてもよい。 -/
theorem tokens_spell (l : Lexeme) (h : l.isNumber = true → Delimited rest) :
    tokens (l.spell ++ rest) = l.token :: tokens rest := by
  cases l with
  | flag b => exact tokens_flag b rest
  | number f => exact tokens_spell_number f (h rfl)
  | text q => exact tokens_spell_text q rest
  | null => exact tokens_cons (c := 'n') (by decide) ("ull".toList ++ rest)
  | openList => exact tokens_openList rest
  | closeList => exact tokens_closeList rest
  | openRecord => exact tokens_openRecord rest
  | closeRecord => exact tokens_closeRecord rest
  | comma => exact tokens_comma rest
  | colon => exact tokens_colon .compact rest

/-- 数の字句が隣り合わない。 -/
def Apart (l m : Lexeme) : Prop := l.isNumber = true → m.isNumber = false

theorem isChain_cons_of_not_number {l : Lexeme} {ls : List Lexeme} (hl : l.isNumber = false)
    (h : ls.IsChain Apart) : (l :: ls).IsChain Apart :=
  List.isChain_cons.mpr ⟨fun _ _ htrue => absurd (hl.symm.trans htrue) Bool.false_ne_true, h⟩

theorem Spaced.delimited {ls : List Lexeme} {cs : List Char} (h : Spaced ls cs)
    (hhead : ∀ l ∈ ls.head?, l.isNumber = false) : Delimited cs := by
  cases h with
  | nil => exact fun c hc => nomatch hc
  | blank hblank =>
      intro c hc
      cases hc
      simp only [isBlank, Bool.or_eq_true, beq_iff_eq] at hblank
      rcases hblank with ((rfl | rfl) | rfl) | rfl <;> decide
  | lexeme l =>
      cases l with
      | number f => exact absurd (hhead _ rfl).symm Bool.false_ne_true
      | flag b => cases b <;> (intro c hc; cases hc; decide)
      | _ => intro c hc; cases hc; decide

/-- 空白をどうはさんでも、同じ字句の列に読める。 -/
theorem Spaced.tokens_eq {ls : List Lexeme} {cs : List Char} (h : Spaced ls cs)
    (hapart : ls.IsChain Apart) : tokens cs = ls.map Lexeme.token := by
  induction h with
  | nil => rw [tokens, List.map_nil]
  | blank hblank _ ih => rw [tokens_blank hblank, ih hapart]
  | lexeme l hspaced ih =>
      obtain ⟨hhead, htail⟩ := List.isChain_cons.mp hapart
      rw [tokens_spell l fun hl => hspaced.delimited fun m hm => hhead m hm hl, ih htail,
        List.map_cons]

namespace Node

mutual
/-- 構文木の字句では、数の後にいつも区切りか括弧が来る。 -/
theorem isChain_lexemes : ∀ (n : Node) {ls : List Lexeme}, ls.IsChain Apart →
    (∀ l ∈ ls.head?, l.isNumber = false) → (n.lexemes ++ ls).IsChain Apart
  | null, _, hls, _ => isChain_cons_of_not_number rfl hls
  | flag _, _, hls, _ => isChain_cons_of_not_number rfl hls
  | number _, _, hls, hhead => List.isChain_cons.mpr ⟨fun l hl _ => hhead l hl, hls⟩
  | text _, _, hls, _ => isChain_cons_of_not_number rfl hls
  | list [], _, hls, _ => isChain_cons_of_not_number rfl (isChain_cons_of_not_number rfl hls)
  | list (n :: ns), ls, hls, _ => by
      have hrest := isChain_itemLexemes ns hls
      rw [lexemes, List.cons_append, List.append_assoc]
      exact isChain_cons_of_not_number rfl (isChain_lexemes n hrest.1 hrest.2)
  | record [], _, hls, _ => isChain_cons_of_not_number rfl (isChain_cons_of_not_number rfl hls)
  | record ((_, n) :: ms), ls, hls, _ => by
      have hrest := isChain_memberLexemes ms hls
      rw [lexemes, List.cons_append, List.cons_append, List.cons_append, List.append_assoc]
      exact isChain_cons_of_not_number rfl (isChain_cons_of_not_number rfl
        (isChain_cons_of_not_number rfl (isChain_lexemes n hrest.1 hrest.2)))

theorem isChain_itemLexemes : ∀ (ns : List Node) {ls : List Lexeme}, ls.IsChain Apart →
    (itemLexemes ns ++ ls).IsChain Apart ∧
      ∀ l ∈ (itemLexemes ns ++ ls).head?, l.isNumber = false
  | [], _, hls =>
      ⟨isChain_cons_of_not_number rfl hls, fun l hl => by cases hl; rfl⟩
  | n :: ns, ls, hls => by
      have hrest := isChain_itemLexemes ns hls
      rw [itemLexemes, List.cons_append, List.append_assoc]
      exact ⟨isChain_cons_of_not_number rfl (isChain_lexemes n hrest.1 hrest.2),
        fun l hl => by cases hl; rfl⟩

theorem isChain_memberLexemes : ∀ (ms : List (Quotation × Node)) {ls : List Lexeme},
    ls.IsChain Apart → (memberLexemes ms ++ ls).IsChain Apart ∧
      ∀ l ∈ (memberLexemes ms ++ ls).head?, l.isNumber = false
  | [], _, hls =>
      ⟨isChain_cons_of_not_number rfl hls, fun l hl => by cases hl; rfl⟩
  | (_, n) :: ms, ls, hls => by
      have hrest := isChain_memberLexemes ms hls
      rw [memberLexemes, List.cons_append, List.cons_append, List.cons_append, List.append_assoc]
      exact ⟨isChain_cons_of_not_number rfl (isChain_cons_of_not_number rfl
        (isChain_cons_of_not_number rfl (isChain_lexemes n hrest.1 hrest.2))),
        fun l hl => by cases hl; rfl⟩
end

/-- 構文木を読んだ字句の列。 -/
def tokens (n : Node) : List Token := n.lexemes.map Lexeme.token

/-- 構文木を書いた文字列は、空白のはさみかたによらず、構文木の字句に読める。 -/
theorem Spells.tokens_eq {n : Node} {s : String} (h : n.Spells s) :
    Json.tokens s.toList = n.tokens := by
  have hchain := n.isChain_lexemes .nil fun _ hl => nomatch hl
  rw [List.append_nil] at hchain
  exact Spaced.tokens_eq h hchain

end Node

end SpecLineage.Json
