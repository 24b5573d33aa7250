import SpecLineage.Proofs.Text.Digits
import SpecLineage.Proofs.Text.Hex
import SpecLineage.Json.Token
import SpecLineage.Json.Write

/-!
# 書いた JSON の字句

木を書いた文字の列は、書きかたによらず、木から決まる字句の列に読める。空白は字句にならず、文字列の符号は元の文字に
戻る。数は次の文字で終わりが決まるので、後に続くものが数を延ばさないことだけを求める。
-/

namespace SpecLineage.Json

/-! ## 空白 -/

theorem tokens_blank {c : Char} (h : isBlank c = true) (rest : List Char) :
    tokens (c :: rest) = tokens rest := by
  rw [tokens, if_pos h]

theorem tokens_cons {c : Char} (h : isBlank c = false) (rest : List Char) :
    tokens (c :: rest) = (token c rest).1 :: tokens (token c rest).2 := by
  rw [tokens, if_neg (Bool.eq_false_iff.mp h)]

theorem tokens_spaces (n : Nat) (rest : List Char) :
    tokens (List.replicate n ' ' ++ rest) = tokens rest := by
  induction n with
  | zero => rfl
  | succ n ih => rw [List.replicate_succ, List.cons_append, tokens_blank (by decide), ih]

theorem tokens_newline (style : Style) (rest : List Char) :
    tokens (style.newline ++ rest) = tokens rest := by
  cases style with
  | compact => rfl
  | pretty depth => rw [Style.newline, List.cons_append, tokens_blank (by decide), tokens_spaces]

theorem tokens_colon (style : Style) (rest : List Char) :
    tokens (style.colon ++ rest) = .colon :: tokens rest := by
  cases style with
  | compact => exact tokens_cons (by decide) rest
  | pretty =>
      refine (tokens_cons (by decide) _).trans (congrArg _ ?_)
      exact tokens_blank (by decide) rest

/-! ## 括弧と区切りと語 -/

theorem tokens_openList (rest : List Char) : tokens ('[' :: rest) = .openList :: tokens rest :=
  tokens_cons (by decide) rest

theorem tokens_closeList (rest : List Char) : tokens (']' :: rest) = .closeList :: tokens rest :=
  tokens_cons (by decide) rest

theorem tokens_openRecord (rest : List Char) :
    tokens ('\x7b' :: rest) = .openRecord :: tokens rest :=
  tokens_cons (by decide) rest

theorem tokens_closeRecord (rest : List Char) :
    tokens ('\x7d' :: rest) = .closeRecord :: tokens rest :=
  tokens_cons (by decide) rest

theorem tokens_comma (rest : List Char) : tokens (',' :: rest) = .comma :: tokens rest :=
  tokens_cons (by decide) rest

theorem tokens_flag (b : Bool) (rest : List Char) :
    tokens ((toString b).toList ++ rest) = .flag b :: tokens rest := by
  cases b with
  | false => exact tokens_cons (c := 'f') (by decide) ("alse".toList ++ rest)
  | true => exact tokens_cons (c := 't') (by decide) ("rue".toList ++ rest)

/-! ## 文字列 -/

theorem decode_char (c : Char) (ps : List Piece) :
    decode (.char c :: ps) = (decode ps).map (c :: ·) := rfl

theorem decode_unit {n : Nat} (h : n < 0xD800) (ps : List Piece) :
    decode (.unit n :: ps) = (decode ps).map (Char.ofNat n :: ·) := by
  have hlow : isLowSurrogate n = false := by
    simp only [isLowSurrogate, Bool.and_eq_false_iff, decide_eq_false_iff_not]; omega
  have hhigh : isHighSurrogate n = false := by
    simp only [isHighSurrogate, Bool.and_eq_false_iff, decide_eq_false_iff_not]; omega
  rw [decode.eq_def]
  simp only [hlow, hhigh, Bool.false_eq_true, ↓reduceIte]

/-- 一文字の書きかたは、その文字を表す一つの片に読める。 -/
theorem pieces_quotedChar (c : Char) (rest : List Char) :
    ∃ p, pieces (quotedChar c ++ rest) = (p :: (pieces rest).1, (pieces rest).2) ∧
      ∀ ps, decode (p :: ps) = (decode ps).map (c :: ·) := by
  unfold quotedChar
  split
  case h_8 =>
    split
    · rename_i hcontrol
      have hlt : c.toNat < 32 := hcontrol
      have hdigits : ∃ a b d e, Hex.digits Hex.lower 4 c.toNat = [a, b, d, e] := ⟨_, _, _, _, rfl⟩
      obtain ⟨a, b, d, e, hdigits⟩ := hdigits
      refine ⟨.unit c.toNat, ?_, fun ps => ?_⟩
      · have hread := Hex.ofDigits?_digits 4 c.toNat
        rw [hdigits, Nat.mod_eq_of_lt (by omega)] at hread
        rw [hdigits]
        simp only [List.cons_append, List.nil_append, pieces, hread]
      · rw [decode_unit (by omega), Char.ofNat_toNat]
    · rename_i hcontrol
      refine ⟨.char c, ?_, decode_char c⟩
      rw [List.singleton_append, pieces, if_neg hcontrol] <;> simp_all
  all_goals exact ⟨.char _, rfl, decode_char _⟩

theorem pieces_quoted (cs rest : List Char) :
    ∃ ps, pieces (cs.flatMap quotedChar ++ '"' :: rest) = (ps, .ok rest) ∧ decode ps = some cs := by
  induction cs with
  | nil => exact ⟨[], by rw [List.flatMap_nil, List.nil_append, pieces], rfl⟩
  | cons c cs ih =>
      obtain ⟨ps, hpieces, hdecode⟩ := ih
      obtain ⟨p, hp, hcons⟩ := pieces_quotedChar c (cs.flatMap quotedChar ++ '"' :: rest)
      refine ⟨p :: ps, ?_, ?_⟩
      · rw [List.flatMap_cons, List.append_assoc, hp, hpieces]
      · rw [hcons, hdecode, Option.map_some]

theorem tokens_quoted (s : String) (rest : List Char) :
    tokens (quoted s ++ rest) = .text (some s) :: tokens rest := by
  obtain ⟨ps, hpieces, hdecode⟩ := pieces_quoted s.toList rest
  have htoken : token '"' (s.toList.flatMap quotedChar ++ '"' :: rest) = (.text (some s), rest) := by
    change textToken _ = _
    simp only [textToken, hpieces, hdecode, Option.map_some, String.ofList_toList]
  rw [quoted, List.cons_append, List.cons_append, List.append_assoc, List.singleton_append,
    tokens_cons (by decide), htoken]

/-! ## 数 -/

/-- 数の後に続いても、数を延ばさない。 -/
def Delimited (rest : List Char) : Prop :=
  ∀ c ∈ rest.head?, c.isDigit = false ∧ c ≠ '.' ∧ c ≠ 'e' ∧ c ≠ 'E'

theorem delimited_newline (style : Style) {rest : List Char} (h : Delimited rest) :
    Delimited (style.newline ++ rest) := by
  cases style with
  | compact => exact h
  | pretty => intro c hc; cases hc; decide

theorem takeWhile_isDigit_append {digits rest : List Char}
    (hdigits : ∀ c ∈ digits, c.isDigit = true) (hrest : ∀ c ∈ rest.head?, c.isDigit = false) :
    (digits ++ rest).takeWhile Char.isDigit = digits ∧
      (digits ++ rest).dropWhile Char.isDigit = rest := by
  rw [List.takeWhile_append_of_pos hdigits, List.dropWhile_append_of_pos hdigits]
  cases rest with
  | nil => exact ⟨List.append_nil digits, rfl⟩
  | cons c cs =>
      have hc := hrest c rfl
      rw [List.takeWhile_cons_of_neg (by simp [hc]), List.dropWhile_cons_of_neg (by simp [hc])]
      exact ⟨List.append_nil digits, rfl⟩

theorem fractionToken_of_delimited (whole : List Char) {rest : List Char} (h : Delimited rest) :
    fractionToken false whole rest = (.number (numeral false whole none none), rest) := by
  cases rest with
  | nil => rfl
  | cons c cs =>
      obtain ⟨-, hdot, hlower, hupper⟩ := h c rfl
      have hexponent : exponentToken false whole none (c :: cs) =
          (.number (numeral false whole none none), c :: cs) := by
        rw [exponentToken.eq_def]
        simp only [hlower, hupper, or_self, ↓reduceIte]
      rw [fractionToken, hexponent]
      intro cs' heq
      exact hdot (List.cons.inj heq).1

theorem wholeToken_toDigits (n : Nat) {rest : List Char} (h : Delimited rest) :
    wholeToken false (Nat.toDigits 10 n ++ rest) =
      (.number (numeral false (Nat.toDigits 10 n) none none), rest) := by
  obtain ⟨htake, hdrop⟩ := takeWhile_isDigit_append
    (fun c hc => Nat.isDigit_of_mem_toDigits (b := 10) (by decide) (by decide) hc)
    (fun c hc => (h c hc).1)
  rw [wholeToken, htake, hdrop]
  split
  · rename_i hnil; exact absurd hnil Nat.toDigits_ne_nil
  · rename_i hzero
    rw [hzero, fractionToken_of_delimited _ h]
  · rename_i tail hne hzero
    rcases Nat.eq_zero_or_pos n with rfl | hpos
    · exact absurd (List.cons.inj hzero).2.symm hne
    · exact absurd (by rw [hzero]; rfl) (head?_toDigits hpos)
  · rw [fractionToken_of_delimited _ h]

theorem le_ofDigitChars (cs : List Char) (a : Nat) : a ≤ Nat.ofDigitChars 10 cs a := by
  induction cs generalizing a with
  | nil => exact Nat.le_of_eq Nat.ofDigitChars_nil.symm
  | cons c cs ih =>
      have := ih (10 * a + (c.toNat - '0'.toNat))
      rw [Nat.ofDigitChars_cons]
      omega

theorem absorb_of_lt (cs : List Char) (a : Nat) (h : Nat.ofDigitChars 10 cs a < UInt64.size) :
    absorb a cs = (Nat.ofDigitChars 10 cs a, 0) := by
  induction cs generalizing a with
  | nil => rw [absorb, Nat.ofDigitChars_nil]
  | cons c cs ih =>
      rw [Nat.ofDigitChars_cons, Nat.mul_comm] at h ⊢
      have hle := le_ofDigitChars cs (a * 10 + (c.toNat - '0'.toNat))
      rw [absorb, if_pos (by omega), ih _ h]

/-- 64 桁の二進数に収まる数は、その値に読める。 -/
theorem numeral_toDigits {n : Nat} (h : n < UInt64.size) :
    numeral false (Nat.toDigits 10 n) none none = .natural n := by
  have habsorb := absorb_of_lt (Nat.toDigits 10 n) 0 (by rwa [Nat.ofDigitChars_ten_toDigits])
  rw [Nat.ofDigitChars_ten_toDigits] at habsorb
  rw [numeral, habsorb]
  rfl

theorem isBlank_of_isDigit {c : Char} (h : c.isDigit = true) : isBlank c = false := by
  simp only [isBlank, Bool.or_eq_false_iff, beq_eq_false_iff_ne]
  refine ⟨⟨⟨?_, ?_⟩, ?_⟩, ?_⟩ <;> rintro rfl <;> exact absurd h (by decide)

theorem token_of_isDigit {c : Char} (h : c.isDigit = true) (rest : List Char) :
    token c rest = wholeToken false (c :: rest) := by
  unfold token
  split <;> first | exact absurd h (by decide) | exact if_pos h

theorem tokens_natural (n : Nat) {rest : List Char} (h : Delimited rest) :
    tokens ((toString n).toList ++ rest) =
      .number (numeral false (Nat.toDigits 10 n) none none) :: tokens rest := by
  have hwhole := wholeToken_toDigits n h
  rw [Nat.toString_eq_ofList_toDigits, String.toList_ofList]
  obtain ⟨c, cs, hdigits⟩ := List.exists_cons_of_ne_nil (Nat.toDigits_ne_nil (n := n) (b := 10))
  have hc : c.isDigit = true :=
    Nat.isDigit_of_mem_toDigits (b := 10) (by decide) (by decide) (hdigits ▸ List.mem_cons_self)
  rw [hdigits, List.cons_append] at hwhole ⊢
  rw [tokens_cons (isBlank_of_isDigit hc), token_of_isDigit hc, hwhole]

/-! ## 木 -/

mutual
/-- 木を書いた文字の列が表す字句。 -/
def lexemes : Tree → List Token
  | .text s => [.text (some s)]
  | .flag b => [.flag b]
  | .natural n => [.number (numeral false (Nat.toDigits 10 n) none none)]
  | .list [] => [.openList, .closeList]
  | .list (t :: ts) => .openList :: (lexemes t ++ itemLexemes ts)
  | .record [] => [.openRecord, .closeRecord]
  | .record ((key, t) :: ms) =>
    .openRecord :: .text (some key) :: .colon :: (lexemes t ++ memberLexemes ms)

/-- 二つ目からの値を、並びの終わりまで書いた字句。 -/
def itemLexemes : List Tree → List Token
  | [] => [.closeList]
  | t :: ts => .comma :: (lexemes t ++ itemLexemes ts)

/-- 二つ目からの項目を、記録の終わりまで書いた字句。 -/
def memberLexemes : List (String × Tree) → List Token
  | [] => [.closeRecord]
  | (key, t) :: ms => .comma :: .text (some key) :: .colon :: (lexemes t ++ memberLexemes ms)
end

theorem delimited_writeItems (style : Style) (ts : List Tree) (rest : List Char) :
    Delimited (writeItems style ts ++ rest) := by
  cases ts with
  | nil =>
      rw [writeItems, List.append_assoc]
      exact delimited_newline style (by intro c hc; cases hc; decide)
  | cons t ts => rw [writeItems]; intro c hc; cases hc; decide

theorem delimited_writeMembers (style : Style) (ms : List (String × Tree)) (rest : List Char) :
    Delimited (writeMembers style ms ++ rest) := by
  cases ms with
  | nil =>
      rw [writeMembers, List.append_assoc]
      exact delimited_newline style (by intro c hc; cases hc; decide)
  | cons m ms => rw [writeMembers]; intro c hc; cases hc; decide

mutual
/-- 木を書いて読んだ字句は、書きかたによらない。 -/
theorem tokens_write (style : Style) : ∀ (t : Tree) {rest : List Char}, Delimited rest →
    tokens (write style t ++ rest) = lexemes t ++ tokens rest
  | .text s, rest, _ => by rw [write, lexemes, tokens_quoted, List.singleton_append]
  | .flag b, rest, _ => by rw [write, lexemes, tokens_flag, List.singleton_append]
  | .natural n, rest, h => by rw [write, lexemes, tokens_natural n h, List.singleton_append]
  | .list [], rest, _ => by
      simp only [write, lexemes, List.cons_append, List.nil_append, tokens_openList,
        tokens_closeList]
  | .list (t :: ts), rest, _ => by
      simp only [write, lexemes, List.cons_append, List.append_assoc, tokens_openList,
        tokens_newline, tokens_write style.deeper t (delimited_writeItems style ts rest),
        tokens_writeItems style ts rest]
  | .record [], rest, _ => by
      simp only [write, lexemes, List.cons_append, List.nil_append, tokens_openRecord,
        tokens_closeRecord]
  | .record ((key, t) :: ms), rest, _ => by
      simp only [write, lexemes, List.cons_append, List.append_assoc, tokens_openRecord,
        tokens_newline, tokens_quoted, tokens_colon,
        tokens_write style.deeper t (delimited_writeMembers style ms rest),
        tokens_writeMembers style ms rest]

theorem tokens_writeItems (style : Style) : ∀ (ts : List Tree) (rest : List Char),
    tokens (writeItems style ts ++ rest) = itemLexemes ts ++ tokens rest
  | [], rest => by
      simp only [writeItems, itemLexemes, List.append_assoc, List.cons_append, List.nil_append,
        tokens_newline, tokens_closeList]
  | t :: ts, rest => by
      simp only [writeItems, itemLexemes, List.append_assoc, List.cons_append, tokens_comma,
        tokens_newline, tokens_write style.deeper t (delimited_writeItems style ts rest),
        tokens_writeItems style ts rest]

theorem tokens_writeMembers (style : Style) : ∀ (ms : List (String × Tree)) (rest : List Char),
    tokens (writeMembers style ms ++ rest) = memberLexemes ms ++ tokens rest
  | [], rest => by
      simp only [writeMembers, memberLexemes, List.append_assoc, List.cons_append, List.nil_append,
        tokens_newline, tokens_closeRecord]
  | (key, t) :: ms, rest => by
      simp only [writeMembers, memberLexemes, List.append_assoc, List.cons_append, tokens_comma,
        tokens_newline, tokens_quoted, tokens_colon,
        tokens_write style.deeper t (delimited_writeMembers style ms rest),
        tokens_writeMembers style ms rest]
end

end SpecLineage.Json
