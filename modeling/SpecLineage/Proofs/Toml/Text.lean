import SpecLineage.Proofs.Text.Hex
import SpecLineage.Toml.Scalar
import SpecLineage.Toml.Write

/-!
# 書いた TOML の文字列

四つの書きかたのそれぞれで、書いた文字列は元の文字列に読める。書きかたは文字列の中身で選ばれるので、中身をそのまま
書く書きかたでは、閉じる引用符に見えるものが中身にない。
-/

namespace SpecLineage.Toml

variable {c e : Char} {cs rest : List Char}

-- 二つの読みは場合が多く重なり、場合ごとの等式を作るのに時間がかかる。下の証明がそれぞれ待たないように、先に作る。
attribute [local simp] basic multiBasic

/-! ## 文字の符号 -/

theorem coded_cases (h : c.toNat < 0x10000) :
    (∃ e, coded c = ['\\', e] ∧ escape? e = some c) ∨
      ∃ d₁ d₂ d₃ d₄, coded c = ['\\', 'u', d₁, d₂, d₃, d₄] ∧
        charOfDigits? [d₁, d₂, d₃, d₄] = some c := by
  unfold coded
  split
  case h_8 =>
    refine .inr ⟨_, _, _, _, rfl, ?_⟩
    change charOfDigits? (Hex.digits Hex.upper 4 c.toNat) = some c
    have hvalid : c.toNat.isValidChar := c.valid
    rw [charOfDigits?, Hex.ofDigits?_digits_upper, Nat.mod_eq_of_lt h, Option.bind_eq_bind,
      Option.bind_some, if_pos hvalid, Char.ofNat_toNat]
    rfl
  all_goals exact .inl ⟨_, rfl, rfl⟩

/-- 符号の頭になる文字は、番号の印でも空白でも改行でもない。 -/
theorem ne_of_escape? (h : escape? e = some c) {d : Char} (hd : escape? d = none) : e ≠ d := by
  rintro rfl
  rw [hd] at h
  cases h

theorem basic_escape (h : escape? e = some c) :
    basic ('\\' :: e :: rest) = consChar c (basic rest) := by
  rw [basic]
  · rw [h, Option.bind_eq_bind, Option.bind_some]
  · exact fun _ _ _ _ _ he => absurd he (ne_of_escape? h rfl)
  · exact fun _ _ _ _ _ _ _ _ _ he => absurd he (ne_of_escape? h rfl)

theorem basic_coded (h : c.toNat < 0x10000) :
    basic (coded c ++ rest) = consChar c (basic rest) := by
  obtain ⟨e, hcoded, he⟩ | ⟨d₁, d₂, d₃, d₄, hcoded, hdigits⟩ := coded_cases h
  · rw [hcoded]
    exact basic_escape he
  · rw [hcoded]
    change basic ('\\' :: 'u' :: d₁ :: d₂ :: d₃ :: d₄ :: rest) = _
    rw [basic, hdigits, Option.bind_eq_bind, Option.bind_some]

theorem multiBasic_escape (h : escape? e = some c) :
    multiBasic .none ('\\' :: e :: rest) = consChar c (multiBasic .none rest) := by
  have hblank : isBlank e = false := by
    simp [isBlank, ne_of_escape? h (d := ' ') rfl, ne_of_escape? h (d := '\t') rfl]
  rw [multiBasic]
  · rw [hblank, h]
    rfl
  · exact fun _ _ _ _ _ he => absurd he (ne_of_escape? h rfl)
  · exact fun _ _ _ _ _ _ _ _ _ he => absurd he (ne_of_escape? h rfl)
  · exact ne_of_escape? h rfl
  · exact fun _ he => absurd he (ne_of_escape? h rfl)
  · exact nofun

theorem multiBasic_coded (h : c.toNat < 0x10000) :
    multiBasic .none (coded c ++ rest) = consChar c (multiBasic .none rest) := by
  obtain ⟨e, hcoded, he⟩ | ⟨d₁, d₂, d₃, d₄, hcoded, hdigits⟩ := coded_cases h
  · rw [hcoded]
    exact multiBasic_escape he
  · rw [hcoded]
    change multiBasic .none ('\\' :: 'u' :: d₁ :: d₂ :: d₃ :: d₄ :: rest) = _
    rw [multiBasic, hdigits, Option.bind_eq_bind, Option.bind_some]
    exact nofun

/-- 二重引用符の中にそのまま書く文字。 -/
def isOpen (c : Char) : Prop := ¬(c < ' ' ∨ c = '\x7f' ∨ c = '\\')

theorem toNat_lt_of_not_isOpen (h : ¬isOpen c) : c.toNat < 0x10000 := by
  have hc : c < ' ' ∨ c = '\x7f' ∨ c = '\\' := Decidable.not_not.mp h
  obtain hc | rfl | rfl := hc
  · exact Nat.lt_trans (Char.lt_def.mp hc) (by decide)
  all_goals decide

theorem isPlain_of_isOpen (h : isOpen c) : isPlain c = true := by
  rw [isOpen, not_or, not_or, Char.not_lt] at h
  simp [isPlain, h.1, h.2.1]

theorem ne_of_isOpen (h : isOpen c) : c ≠ '\\' ∧ c ≠ '\n' ∧ c ≠ '\r' := by
  refine ⟨fun hc => h (.inr (.inr hc)), ?_, ?_⟩ <;> rintro rfl <;> exact h (.inl (by decide))

/-- 書いた中身が引用符で始まるのは、引用符をそのまま書いたときだけである。 -/
theorem quote_of_escaped_cons {multi : Bool} {allowed run : Nat} {tail : List Char}
    (h : escaped multi allowed run (c :: cs) ++ rest = '"' :: tail) :
    c = '"' ∧ run < allowed ∧ tail = escaped multi allowed (run + 1) cs ++ rest := by
  have hcoded {tail' : List Char} (hc : c.toNat < 0x10000) : coded c ++ tail' ≠ '"' :: tail := by
    obtain ⟨e, he, -⟩ | ⟨d₁, d₂, d₃, d₄, he, -⟩ := coded_cases hc <;> rw [he] <;>
      exact fun h => nomatch h
  rw [escaped] at h
  split at h
  · rename_i hquote
    split at h
    · exact ⟨hquote, ‹_›, (List.cons.inj h).2.symm⟩
    · rw [List.append_assoc] at h
      exact absurd h (hcoded (by rw [hquote]; decide))
  · rename_i hquote
    split at h
    · exact nomatch h
    · split at h
      · rename_i hc
        rw [List.append_assoc] at h
        exact absurd h (hcoded (toNat_lt_of_not_isOpen (not_not_intro hc)))
      · exact absurd (List.cons.inj h).1 hquote

/-! ## 二重引用符で囲んだ文字列 -/

theorem basic_of_isOpen (h : isOpen c) (hquote : c ≠ '"') :
    basic (c :: rest) = consChar c (basic rest) := by
  obtain ⟨hslash, -, -⟩ := ne_of_isOpen h
  rw [basic, if_pos (isPlain_of_isOpen h)]
  · exact hquote
  · exact fun _ _ _ _ _ hc => absurd hc hslash
  · exact fun _ _ _ _ _ _ _ _ _ hc => absurd hc hslash
  · exact fun _ _ hc => absurd hc hslash

theorem basic_escaped (cs rest : List Char) :
    basic (escaped false 0 0 cs ++ '"' :: rest) = some (cs, rest) := by
  induction cs with
  | nil => rw [escaped, List.nil_append, basic]
  | cons c cs ih =>
      rw [escaped]
      by_cases hquote : c = '"'
      · rw [if_pos hquote, if_neg (Nat.lt_irrefl 0), List.append_assoc, basic_coded, ih]
        · rfl
        · rw [hquote]; decide
      · rw [if_neg hquote, if_neg (fun h => Bool.noConfusion h.2)]
        by_cases hopen : isOpen c
        · rw [if_neg hopen, List.cons_append, basic_of_isOpen hopen hquote, ih]
          rfl
        · rw [if_pos (Decidable.not_not.mp hopen), List.append_assoc,
            basic_coded (toNat_lt_of_not_isOpen hopen), ih]
          rfl

/-! ## 三つ並べた二重引用符で囲んだ文字列 -/

/-- 同じ引用符の並びの間では、中身と閉じる引用符とを入れ替えてよい。 -/
theorem replicate_append_quotes (n : Nat) (quote : Char) (rest : List Char) :
    List.replicate n quote ++ quote :: quote :: quote :: rest =
      quote :: quote :: quote :: (List.replicate n quote ++ rest) := by
  have hcomm : List.replicate n quote ++ List.replicate 3 quote =
      List.replicate 3 quote ++ List.replicate n quote := by
    rw [List.replicate_append_replicate, List.replicate_append_replicate, Nat.add_comm]
  calc List.replicate n quote ++ quote :: quote :: quote :: rest
      = (List.replicate n quote ++ List.replicate 3 quote) ++ rest :=
        (List.append_assoc _ (List.replicate 3 quote) _).symm
    _ = (List.replicate 3 quote ++ List.replicate n quote) ++ rest := by rw [hcomm]
    _ = quote :: quote :: quote :: (List.replicate n quote ++ rest) :=
        List.append_assoc (List.replicate 3 quote) _ _

/-- 閉じる引用符の直前の引用符は、二つまで中身になる。 -/
theorem closing_append {quote : Char} (n : Nat) (hn : n ≤ 2)
    (hrest : ∀ d ∈ rest.head?, d ≠ quote) :
    closing quote (List.replicate n quote ++ rest) = (List.replicate n quote, rest) := by
  have hnil : closing quote rest = ([], rest) := by
    rcases rest with _ | ⟨c, _ | ⟨d, rest⟩⟩
    · rfl
    · exact if_neg (hrest c rfl)
    · exact if_neg (hrest c rfl)
  have hone : closing quote (quote :: rest) = ([quote], rest) := by
    rcases rest with _ | ⟨c, rest⟩
    · exact if_pos rfl
    · exact (if_pos rfl).trans (if_neg (hrest c rfl))
  obtain rfl | rfl | rfl : n = 0 ∨ n = 1 ∨ n = 2 := by omega
  · exact hnil
  · exact hone
  · exact (if_pos rfl).trans (if_pos rfl)

theorem multiBasic_of_isOpen (h : isOpen c) (hquote : ∀ tail, c = '"' → rest ≠ '"' :: '"' :: tail) :
    multiBasic .none (c :: rest) = consChar c (multiBasic .none rest) := by
  obtain ⟨hslash, hnewline, hreturn⟩ := ne_of_isOpen h
  rw [multiBasic, if_pos (isPlain_of_isOpen h)]
  · exact fun tail hc hrest => hquote tail hc hrest
  · exact fun _ _ _ _ _ hc => absurd hc hslash
  · exact fun _ _ _ _ _ _ _ _ _ hc => absurd hc hslash
  · exact fun _ hc => absurd hc hslash
  · exact fun _ hc => absurd hc hslash
  · exact fun _ _ hc => absurd hc hslash
  · exact hnewline
  · exact fun _ hc => absurd hc hreturn
  all_goals exact nofun

/-- 引用符をそのまま書いた後に二つの引用符が続くなら、中身の残りは引用符だけである。 -/
theorem eq_replicate_of_quotes {run : Nat} {tail : List Char} (hrun : run < 2)
    (h : escaped true 2 (run + 1) cs ++ rest = '"' :: '"' :: tail) :
    ∃ n, cs = List.replicate n '"' ∧ run + 1 + n ≤ 2 := by
  rcases cs with _ | ⟨c, cs⟩
  · exact ⟨0, rfl, hrun⟩
  · obtain ⟨rfl, hrun', htail⟩ := quote_of_escaped_cons h
    rcases cs with _ | ⟨d, cs⟩
    · exact ⟨1, rfl, hrun'⟩
    · obtain ⟨-, hrun'', -⟩ := quote_of_escaped_cons htail.symm
      omega

theorem escaped_replicate {run n : Nat} (h : run + n ≤ 2) :
    escaped true 2 run (List.replicate n '"') = List.replicate n '"' := by
  induction n generalizing run with
  | zero => rfl
  | succ n ih =>
      rw [List.replicate_succ, escaped, if_pos rfl, if_pos (by omega), ih (by omega)]

theorem multiBasic_replicate (n : Nat) (hn : n ≤ 2) (hrest : ∀ d ∈ rest.head?, d ≠ '"') :
    multiBasic .none (List.replicate n '"' ++ '"' :: '"' :: '"' :: rest) =
      some (List.replicate n '"', rest) := by
  rw [replicate_append_quotes, multiBasic, closing_append n hn hrest]
  exact nofun

theorem multiBasic_escaped {run : Nat} (hrun : run ≤ 2) (hrest : ∀ d ∈ rest.head?, d ≠ '"') :
    multiBasic .none (escaped true 2 run cs ++ '"' :: '"' :: '"' :: rest) = some (cs, rest) := by
  induction cs generalizing run with
  | nil => exact multiBasic_replicate 0 (Nat.zero_le 2) hrest
  | cons c cs ih =>
      by_cases hquote : c = '"'
      · subst hquote
        by_cases hlt : run < 2
        · by_cases hends : ∃ n, cs = List.replicate n '"' ∧ run + 1 + n ≤ 2
          · -- 残りが引用符だけなら、閉じる引用符と続けて読まれるので、一文字ずつには分けられない。
            obtain ⟨n, rfl, hn⟩ := hends
            rw [← List.replicate_succ, escaped_replicate (by omega)]
            exact multiBasic_replicate (n + 1) (by omega) hrest
          · rw [escaped, if_pos rfl, if_pos hlt, List.cons_append, multiBasic_of_isOpen, ih hlt]
            · rfl
            · unfold isOpen; decide
            · exact fun tail _ htail => hends (eq_replicate_of_quotes hlt htail)
        · -- 三つ目の引用符は符号で書いてあり、そこで引用符の並びが途切れる。
          rw [escaped, if_pos rfl, if_neg hlt, List.append_assoc, multiBasic_coded (by decide),
            ih (Nat.zero_le 2)]
          rfl
      · rw [escaped, if_neg hquote]
        by_cases hnewline : c = '\n'
        · subst hnewline
          rw [if_pos ⟨rfl, rfl⟩, List.cons_append, multiBasic, ih (Nat.zero_le 2)]
          · rfl
          · exact nofun
          · exact nofun
        · rw [if_neg fun h => hnewline h.1]
          by_cases hopen : isOpen c
          · rw [if_neg hopen, List.cons_append, multiBasic_of_isOpen hopen fun _ h => absurd h hquote,
              ih (Nat.zero_le 2)]
            rfl
          · rw [if_pos (Decidable.not_not.mp hopen), List.append_assoc,
              multiBasic_coded (toNat_lt_of_not_isOpen hopen), ih (Nat.zero_le 2)]
            rfl

/-! ## 一重引用符で囲んだ文字列 -/

theorem literal_append (h : ∀ c ∈ cs, isPlain c = true ∧ c ≠ '\'') :
    literal (cs ++ '\'' :: rest) = some (cs, rest) := by
  induction cs with
  | nil => rw [List.nil_append, literal]
  | cons c cs ih =>
      obtain ⟨⟨hplain, hquote⟩, hcs⟩ := List.forall_mem_cons.mp h
      rw [List.cons_append, literal, if_pos hplain, ih hcs]
      · rfl
      · exact hquote

theorem le_longestRun (quote : Char) (run : Nat) (cs : List Char) :
    run ≤ longestRun quote run cs := by
  induction cs generalizing run with
  | nil => exact Nat.le_refl run
  | cons c cs ih =>
      rw [longestRun]
      split
      · exact Nat.le_trans (Nat.le_succ run) (ih (run + 1))
      · exact Nat.le_max_left _ _

/-- 引用符の後に二つの引用符が続くなら、中身の残りは引用符だけである。 -/
theorem eq_replicate_of_marks {run : Nat} {tail : List Char}
    (hlongest : longestRun '\'' (run + 1) cs ≤ 2)
    (h : cs ++ '\'' :: '\'' :: '\'' :: rest = '\'' :: '\'' :: tail) :
    ∃ n ≤ 1, cs = List.replicate n '\'' := by
  rcases cs with _ | ⟨c, _ | ⟨d, cs⟩⟩
  · exact ⟨0, Nat.zero_le 1, rfl⟩
  · obtain ⟨rfl, -⟩ := List.cons.inj h
    exact ⟨1, Nat.le_refl 1, rfl⟩
  · obtain ⟨rfl, htail⟩ := List.cons.inj h
    obtain ⟨rfl, -⟩ := List.cons.inj htail
    have hle := le_longestRun '\'' (run + 1 + 1 + 1) cs
    rw [longestRun, if_pos rfl, longestRun, if_pos rfl] at hlongest
    omega

theorem multiLiteral_replicate (n : Nat) (hn : n ≤ 2) (hrest : ∀ d ∈ rest.head?, d ≠ '\'') :
    multiLiteral (List.replicate n '\'' ++ '\'' :: '\'' :: '\'' :: rest) =
      some (List.replicate n '\'', rest) := by
  rw [replicate_append_quotes, multiLiteral, closing_append n hn hrest]

theorem multiLiteral_of_isPlain (h : isPlain c = true)
    (hquote : ∀ tail, c = '\'' → rest ≠ '\'' :: '\'' :: tail) :
    multiLiteral (c :: rest) = consChar c (multiLiteral rest) := by
  rw [multiLiteral, if_pos h]
  · exact hquote
  · rintro rfl; exact absurd h (by decide)
  · rintro _ rfl; exact absurd h (by decide)

theorem multiLiteral_append {run : Nat} (hlongest : longestRun '\'' run cs ≤ 2)
    (hcs : ∀ c ∈ cs, isPlain c = true ∨ c = '\n') (hrest : ∀ d ∈ rest.head?, d ≠ '\'') :
    multiLiteral (cs ++ '\'' :: '\'' :: '\'' :: rest) = some (cs, rest) := by
  induction cs generalizing run with
  | nil => exact multiLiteral_replicate 0 (Nat.zero_le 2) hrest
  | cons c cs ih =>
      obtain ⟨hc, hcs'⟩ := List.forall_mem_cons.mp hcs
      rw [longestRun] at hlongest
      by_cases hquote : c = '\''
      · subst hquote
        rw [if_pos rfl] at hlongest
        by_cases hends : ∃ n ≤ 1, cs = List.replicate n '\''
        · obtain ⟨n, hn, rfl⟩ := hends
          exact multiLiteral_replicate (n + 1) (Nat.succ_le_succ hn) hrest
        · rw [List.cons_append, multiLiteral_of_isPlain (by decide), ih hlongest hcs']
          · rfl
          · exact fun tail _ htail => hends (eq_replicate_of_marks hlongest htail)
      · rw [if_neg hquote] at hlongest
        have hread := ih (Nat.le_trans (Nat.le_max_right _ _) hlongest) hcs'
        obtain hc | rfl := hc
        · rw [List.cons_append, multiLiteral_of_isPlain hc fun _ h => absurd h hquote, hread]
          rfl
        · rw [List.cons_append, multiLiteral, hread]
          rfl

/-! ## 書きかたの選択 -/

/-- 値の後には、改行か、並びの区切りか、並びの終わりが続く。 -/
def Follows (rest : List Char) : Prop :=
  ∃ c tail, rest = c :: tail ∧ (c = '\n' ∨ c = ',' ∨ c = ']')

theorem Follows.head_ne (h : Follows rest) {d : Char} (hd : d ∉ ['\n', ',', ']']) :
    ∀ c ∈ rest.head?, c ≠ d := by
  obtain ⟨c, tail, rfl, hc⟩ := h
  rintro _ ⟨⟩ rfl
  exact hd (by simpa using hc)

/-- 中身をそのまま書くのは、制御文字がなく、閉じる引用符に見えるものもないときである。 -/
theorem quoting_cases (cs : List Char) : quoting cs = .basic ∨ quoting cs = .multiBasic ∨
    (quoting cs = .literal ∧ cs.any isControl = false ∧ longestRun '\'' 0 cs = 0 ∧ '\n' ∉ cs) ∨
    (quoting cs = .multiLiteral ∧ cs.any isControl = false ∧ longestRun '\'' 0 cs ≤ 2) := by
  fun_cases quoting cs with
  | case1 => exact .inl rfl
  | case2 coded broken doubles singles _ h =>
      simp only [Bool.and_eq_true, Bool.not_eq_true', beq_iff_eq] at h
      exact .inr (.inr (.inl ⟨rfl, h.1.1, h.1.2, by simpa [broken] using h.2⟩))
  | case3 => exact .inr (.inl rfl)
  | case4 coded broken doubles singles _ _ _ h =>
      simp only [Bool.and_eq_true, Bool.not_eq_true', decide_eq_true_iff] at h
      exact .inr (.inr (.inr ⟨rfl, h⟩))
  | case5 => exact .inr (.inl rfl)
  | case6 => exact .inl rfl

theorem isPlain_of_isControl (h : isControl c = false) : isPlain c = true ∨ c = '\n' := by
  simp only [isControl, Bool.or_eq_false_iff, beq_eq_false_iff_ne, Bool.and_eq_false_iff,
    decide_eq_false_iff_not, Char.not_lt, bne_eq_false_iff_eq] at h
  obtain ⟨(hspace | rfl) | rfl, hdelete⟩ := h
  · simp [isPlain, hspace, hdelete]
  · exact .inl (by decide)
  · exact .inr rfl

theorem skipNewline_start {body : List Char}
    (h : ∀ c ∈ body.head?, c ≠ '\r' ∧ (c = '\n' → '\n' ∈ cs)) :
    skipNewline ((if cs.contains '\n' then ['\n'] else []) ++ body) = body := by
  split
  · rfl
  · rename_i hnewline
    rw [List.nil_append]
    unfold skipNewline
    split
    · exact absurd (List.contains_iff_mem.mpr ((h _ rfl).2 rfl)) hnewline
    · exact absurd rfl (h _ rfl).1
    · rfl

theorem ne_mark_of_longestRun (h : longestRun '\'' 0 cs = 0) : ∀ c ∈ cs, c ≠ '\'' := by
  induction cs with
  | nil => exact nofun
  | cons c cs ih =>
      rw [longestRun] at h
      split at h
      · have hle := le_longestRun '\'' (0 + 1) cs
        omega
      · rename_i hc
        exact List.forall_mem_cons.mpr ⟨hc, ih (Nat.max_eq_zero_iff.mp h).2⟩

theorem escaped_ne_quotes (cs : List Char) {tail : List Char} (h : Follows rest) :
    escaped false 0 0 cs ++ '"' :: rest ≠ '"' :: '"' :: tail := by
  cases cs with
  | nil =>
      intro heq
      exact h.head_ne (by decide) '"' (by rw [(List.cons.inj heq).2]; rfl) rfl
  | cons c cs => exact fun heq => Nat.not_lt_zero 0 (quote_of_escaped_cons heq).2.1

theorem append_ne_marks (hcs : ∀ c ∈ cs, c ≠ '\'') {tail : List Char} (h : Follows rest) :
    cs ++ '\'' :: rest ≠ '\'' :: '\'' :: tail := by
  cases cs with
  | nil =>
      intro heq
      exact h.head_ne (by decide) '\'' (by rw [(List.cons.inj heq).2]; rfl) rfl
  | cons c cs => exact fun heq => hcs c List.mem_cons_self (List.cons.inj heq).1

/-- 書いた中身は、元の中身に改行がなければ、改行で始まらない。 -/
theorem head_escaped (cs rest : List Char) :
    ∀ d ∈ (escaped true 2 0 cs ++ '"' :: rest).head?, d ≠ '\r' ∧ (d = '\n' → '\n' ∈ cs) := by
  have hcoded {c : Char} {tail : List Char} (hc : c.toNat < 0x10000) :
      (coded c ++ tail).head? = some '\\' := by
    obtain ⟨e, he, -⟩ | ⟨d₁, d₂, d₃, d₄, he, -⟩ := coded_cases hc <;> rw [he] <;> rfl
  cases cs with
  | nil => rintro d ⟨⟩; exact ⟨by decide, fun h => absurd h (by decide)⟩
  | cons c cs =>
      rw [escaped, if_pos (show 0 < 2 by decide)]
      split
      · rintro d ⟨⟩
        exact ⟨by decide, fun h => absurd h (by decide)⟩
      · split
        · rename_i hnewline
          rintro d ⟨⟩
          exact ⟨by decide, fun _ => by rw [hnewline.1]; exact List.mem_cons_self⟩
        · split
          · rename_i hc
            rw [List.append_assoc, hcoded (toNat_lt_of_not_isOpen (not_not_intro hc))]
            rintro d ⟨⟩
            exact ⟨by decide, fun h => absurd h (by decide)⟩
          · rename_i hopen
            obtain ⟨-, hnewline, hreturn⟩ := ne_of_isOpen hopen
            rintro d ⟨⟩
            exact ⟨hreturn, fun h => absurd h hnewline⟩

theorem head_plain (hcs : ∀ c ∈ cs, isPlain c = true ∨ c = '\n') (rest : List Char) :
    ∀ d ∈ (cs ++ '\'' :: rest).head?, d ≠ '\r' ∧ (d = '\n' → '\n' ∈ cs) := by
  cases cs with
  | nil => rintro d ⟨⟩; exact ⟨by decide, fun h => absurd h (by decide)⟩
  | cons c cs =>
      rintro d ⟨⟩
      refine ⟨?_, fun h => h ▸ List.mem_cons_self⟩
      rintro rfl
      exact absurd (hcs _ List.mem_cons_self) (by decide)

theorem text_basic (h : ∀ tail, cs ≠ '"' :: '"' :: tail) :
    text ('"' :: cs) = (basic cs).map fun (chars, rest) => (String.ofList chars, rest) := by
  unfold text
  split
  case h_1 heq => exact absurd (List.cons.inj heq).2 (h _)
  case h_2 heq => rw [(List.cons.inj heq).2]
  case h_3 heq => exact nomatch heq
  case h_4 heq => exact nomatch heq
  case h_5 _ hbasic _ _ => exact absurd rfl (hbasic cs)

theorem text_literal (h : ∀ tail, cs ≠ '\'' :: '\'' :: tail) :
    text ('\'' :: cs) = (literal cs).map fun (chars, rest) => (String.ofList chars, rest) := by
  unfold text
  split
  case h_1 heq => exact nomatch heq
  case h_2 heq => exact nomatch heq
  case h_3 heq => exact absurd (List.cons.inj heq).2 (h _)
  case h_4 heq => rw [(List.cons.inj heq).2]
  case h_5 _ _ _ hliteral => exact absurd rfl (hliteral cs)

theorem text_multiBasic (cs : List Char) : text ('"' :: '"' :: '"' :: cs) =
    (multiBasic .none (skipNewline cs)).map fun (chars, rest) => (String.ofList chars, rest) := rfl

theorem text_multiLiteral (cs : List Char) : text ('\'' :: '\'' :: '\'' :: cs) =
    (multiLiteral (skipNewline cs)).map fun (chars, rest) => (String.ofList chars, rest) := rfl

theorem exists_quoted_eq_cons (s : String) :
    ∃ c cs, quoted s = c :: cs ∧ (c = '"' ∨ c = '\'') := by
  rw [quoted]
  cases quoting s.toList
  case basic => exact ⟨_, _, rfl, .inl rfl⟩
  case literal => exact ⟨_, _, rfl, .inr rfl⟩
  case multiBasic => exact ⟨_, _, rfl, .inl rfl⟩
  case multiLiteral => exact ⟨_, _, rfl, .inr rfl⟩

theorem text_quoted (s : String) (h : Follows rest) : text (quoted s ++ rest) = some (s, rest) := by
  have hstring : some (String.ofList s.toList, rest) = some (s, rest) := by rw [String.ofList_toList]
  have hplain (hcontrol : s.toList.any isControl = false) :
      ∀ c ∈ s.toList, isPlain c = true ∨ c = '\n' := fun c hc =>
    isPlain_of_isControl (Bool.eq_false_iff.mpr (List.any_eq_false.mp hcontrol c hc))
  obtain hq | hq | ⟨hq, hcontrol, hmark, hnewline⟩ | ⟨hq, hcontrol, hmark⟩ := quoting_cases s.toList
  · simp only [quoted, hq, List.cons_append, List.append_assoc, List.nil_append]
    rw [text_basic fun _ => escaped_ne_quotes s.toList h, basic_escaped]
    exact hstring
  · simp only [quoted, hq, List.append_assoc]
    change text ('"' :: '"' :: '"' :: (_ ++ (_ ++ '"' :: '"' :: '"' :: rest))) = _
    rw [text_multiBasic, skipNewline_start (head_escaped s.toList _),
      multiBasic_escaped (Nat.zero_le 2) (h.head_ne (by decide))]
    exact hstring
  · have hliteral : ∀ c ∈ s.toList, isPlain c = true ∧ c ≠ '\'' := fun c hc =>
      ⟨(hplain hcontrol c hc).resolve_right fun heq => hnewline (heq ▸ hc),
        ne_mark_of_longestRun hmark c hc⟩
    simp only [quoted, hq, List.cons_append, List.append_assoc, List.nil_append]
    rw [text_literal fun _ => append_ne_marks (fun c hc => (hliteral c hc).2) h,
      literal_append hliteral]
    exact hstring
  · simp only [quoted, hq, List.append_assoc]
    change text ('\'' :: '\'' :: '\'' :: (_ ++ (_ ++ '\'' :: '\'' :: '\'' :: rest))) = _
    rw [text_multiLiteral, skipNewline_start (head_plain (hplain hcontrol) _),
      multiLiteral_append hmark (hplain hcontrol) (h.head_ne (by decide))]
    exact hstring

end SpecLineage.Toml
