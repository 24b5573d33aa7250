import SpecLineage.Proofs.Data.Regular
import SpecLineage.Proofs.Text.Digits
import SpecLineage.Proofs.Toml.Text
import SpecLineage.Toml.Value

/-!
# 書いた TOML の値

一行に書いた値は、後に続くものを残して元の値に読める。数は日時と紛れず、二つ以上の値の並びは、値ごとに行を改めても
元の並びに読める。
-/

namespace SpecLineage.Toml

/-! ## 値の姿 -/

/-- 表の項目。表でなければ項目はない。 -/
def Node.entries : Node → Entries
  | .table _ es => es
  | _ => []

mutual
/-- 名札つきの木を書いて読んだ値。見出しをつけて書く項目は、表の終わりに並ぶ。 -/
def nodeOf : Tree → Node
  | .text s => .text s
  | .flag b => .flag b
  | .natural n => .integer n
  | .list ts =>
    if hasHeading (.list ts) then .tables ((itemNodes ts).map Node.entries) else .list (itemNodes ts)
  | .record ms =>
    .table (if showsHeading ms then .header else .implied) (plainEntries ms ++ nestedEntries ms)

def itemNodes : List Tree → List Node
  | [] => []
  | t :: ts => nodeOf t :: itemNodes ts

/-- 見出しをつけずに書く項目。 -/
def plainEntries : List (String × Tree) → Entries
  | [] => []
  | (key, t) :: ms => if hasHeading t then plainEntries ms else (key, nodeOf t) :: plainEntries ms

/-- 見出しをつけて書く項目。 -/
def nestedEntries : List (String × Tree) → Entries
  | [] => []
  | (key, t) :: ms => if hasHeading t then (key, nodeOf t) :: nestedEntries ms else nestedEntries ms
end

variable {rest : List Char}

/-! ## 数 -/

/-- 数字の列の後に、値の終わりが続く。 -/
def Numeric (cs : List Char) : Prop :=
  ∃ ds rest, cs = ds ++ rest ∧ (∀ d ∈ ds, d.isDigit = true) ∧ Follows rest

theorem Follows.isDigit_head (h : Follows rest) {c : Char} {cs : List Char} (hcs : rest = c :: cs) :
    c.isDigit = false := by
  obtain ⟨d, tail, rfl, hd⟩ := h
  obtain ⟨rfl, rfl⟩ := List.cons.inj hcs
  obtain rfl | rfl | rfl := hd <;> rfl

theorem numeric_of_twoDigits {cs cs' : List Char} {n : Nat} (h : Numeric cs)
    (htwo : twoDigits cs = some (n, cs')) : Numeric cs' := by
  obtain ⟨ds, rest, rfl, hds, hrest⟩ := h
  unfold twoDigits at htwo
  split at htwo
  case h_2 => cases htwo
  case h_1 a b tail heq =>
    split at htwo
    case isFalse => cases htwo
    case isTrue hdigits =>
      obtain ⟨ha, hb⟩ := Bool.and_eq_true_iff.mp hdigits
      cases htwo
      rcases ds with _ | ⟨a', _ | ⟨b', ds⟩⟩
      · rw [hrest.isDigit_head heq] at ha
        cases ha
      · rw [hrest.isDigit_head (List.cons.inj heq).2] at hb
        cases hb
      · obtain rfl := (List.cons.inj (List.cons.inj heq).2).2
        exact ⟨ds, rest, rfl, fun d hd =>
          hds d (List.mem_cons_of_mem _ (List.mem_cons_of_mem _ hd)), hrest⟩

theorem char_eq_none {cs : List Char} (h : Numeric cs) {c : Char} (hc : c.isDigit = false)
    (hrest : c ∉ ['\n', ',', ']']) : char c cs = none := by
  obtain ⟨_ | ⟨d, ds⟩, rest, rfl, hds, hfollows⟩ := h
  · obtain ⟨d, tail, rfl, hd⟩ := hfollows
    refine if_neg ?_
    rintro rfl
    exact hrest (by simpa using hd)
  · refine if_neg ?_
    rintro rfl
    rw [hds d List.mem_cons_self] at hc
    cases hc

/-- 数字の列だけでは日付にも時刻にもならない。 -/
theorem moment_eq_none {cs : List Char} (h : Numeric cs) : moment cs = none := by
  have hdate : date cs = none := by
    rw [date]
    rcases hcentury : twoDigits cs with _ | ⟨century, cs'⟩
    · rfl
    have hcs' := numeric_of_twoDigits h hcentury
    rcases hyear : twoDigits cs' with _ | ⟨year, cs''⟩
    · simp only [hyear, Option.bind_eq_bind, Option.bind_some, Option.bind_none]
    have hcs'' := numeric_of_twoDigits hcs' hyear
    simp only [hyear, Option.bind_eq_bind, Option.bind_some, Option.bind_none,
      char_eq_none hcs'' (show '-'.isDigit = false by decide) (by decide)]
  have htime : time cs = none := by
    rw [time, hourMinute]
    rcases hhour : twoDigits cs with _ | ⟨hour, cs'⟩
    · rfl
    have hcs' := numeric_of_twoDigits h hhour
    simp only [Option.bind_eq_bind, Option.bind_some, Option.bind_none,
      char_eq_none hcs' (show ':'.isDigit = false by decide) (by decide)]
  rw [moment, hdate, htime]
  rfl

theorem digitRun_append {isDigit : Char → Bool} {ds : List Char} (hds : ∀ d ∈ ds, isDigit d = true)
    (hmark : isDigit '_' = false) {c : Char} {tail : List Char} (hc : isDigit c = false)
    (hc' : c ≠ '_') : digitRun isDigit (ds ++ c :: tail) = (ds, c :: tail) := by
  induction ds with
  | nil =>
      rw [List.nil_append]
      cases tail <;> rw [digitRun, if_neg (by rw [hc]; decide)]
  | cons d ds ih =>
      obtain ⟨hd, hds⟩ := List.forall_mem_cons.mp hds
      obtain ⟨e, more, hmore, he⟩ : ∃ e more, ds ++ c :: tail = e :: more ∧ e ≠ '_' := by
        cases ds with
        | nil => exact ⟨c, tail, rfl, hc'⟩
        | cons e ds =>
            refine ⟨e, _, rfl, ?_⟩
            rintro rfl
            rw [hds _ List.mem_cons_self] at hmark
            cases hmark
      have hrun := ih hds
      rw [List.cons_append, hmore, digitRun, if_pos hd, if_neg he, ← hmore, hrun]

theorem ofDigits_toDigits (n : Nat) : ofDigits 10 (Nat.toDigits 10 n) = n := by
  have hfold (ds : List Char) (hds : ∀ d ∈ ds, d.isDigit = true) (acc : Nat) :
      ds.foldl (fun acc c => acc * 10 + (Hex.value? c).getD 0) acc = Nat.ofDigitChars 10 ds acc := by
    induction ds generalizing acc with
    | nil => rw [Nat.ofDigitChars_nil, List.foldl_nil]
    | cons d ds ih =>
        obtain ⟨hd, hds⟩ := List.forall_mem_cons.mp hds
        rw [List.foldl_cons, ih hds, (Hex.value?_of_isDigit hd).1, Nat.ofDigitChars_cons,
          Option.getD_some, Nat.mul_comm]
  rw [ofDigits, hfold _ (fun _ => isDigit_of_mem_toDigits), Nat.ofDigitChars_ten_toDigits]

section Natural

variable {n : Nat}

theorem decimal_toDigits (hn : n < 0x8000000000000000) (h : Follows rest) :
    decimal (Nat.toDigits 10 n ++ rest) = some (.integer n, rest) := by
  obtain ⟨c, cs, hdigits, hc, hzero⟩ := exists_toDigits_eq_cons n
  obtain ⟨f, tail, rfl, hf⟩ := h
  have hsign : sign (Nat.toDigits 10 n ++ f :: tail) = (false, Nat.toDigits 10 n ++ f :: tail) := by
    rw [hdigits, List.cons_append]
    unfold sign
    split
    case h_1 heq => exact absurd hc (by rw [(List.cons.inj heq).1]; decide)
    case h_2 heq => exact absurd hc (by rw [(List.cons.inj heq).1]; decide)
    case h_3 => rfl
  have hrun : digitRun Char.isDigit (Nat.toDigits 10 n ++ f :: tail) =
      (Nat.toDigits 10 n, f :: tail) := by
    refine digitRun_append (fun _ => isDigit_of_mem_toDigits) (by decide) ?_ ?_ <;>
      obtain rfl | rfl | rfl := hf <;> decide
  -- 余分な `0` はなく、後に続く文字は小数にも指数にもならない。
  have hwhole : ((Nat.toDigits 10 n).isEmpty || ((Nat.toDigits 10 n).head? == some '0' &&
      decide (1 < (Nat.toDigits 10 n).length))) = false := by
    rw [hdigits]
    by_cases hc' : c = '0'
    · rw [hzero hc', hc']
      rfl
    · simp [hc']
  have hfraction : fraction? (f :: tail) = (none, f :: tail) := by
    obtain rfl | rfl | rfl := hf <;> rfl
  have hexponent : exponent? (f :: tail) = (none, f :: tail) := by
    obtain rfl | rfl | rfl := hf <;> rfl
  rw [decimal, hsign]
  simp only [hrun, hwhole, hfraction, hexponent, ofDigits_toDigits, Option.isNone_none,
    Bool.and_self, Bool.false_eq_true, ↓reduceIte]
  have hinteger : integer? (n : Int) = some (.integer n) := if_pos ⟨by omega, by omega⟩
  rw [hinteger]
  rfl

/-- 数字の列は、底の印でも符号でも引用符でもない文字で始まる。 -/
theorem scalar_toDigits (hn : n < 0x8000000000000000) (h : Follows rest) :
    scalar (Nat.toDigits 10 n ++ rest) = some (.integer n, rest) := by
  obtain ⟨c, cs, hdigits, hc, hzero⟩ := exists_toDigits_eq_cons n
  have hmoment : moment (Nat.toDigits 10 n ++ rest) = none :=
    moment_eq_none ⟨_, rest, rfl, fun _ => isDigit_of_mem_toDigits, h⟩
  have hdecimal := decimal_toDigits hn h
  have hradix {d : Char} {tail : List Char} (hd : d ∉ ['\n', ',', ']']) :
      c :: (cs ++ rest) ≠ '0' :: d :: tail := by
    intro heq
    obtain ⟨hc', hcs⟩ := List.cons.inj heq
    rw [hzero hc', List.nil_append] at hcs
    exact h.head_ne hd d (by rw [hcs]; rfl) rfl
  rw [hdigits, List.cons_append] at hmoment hdecimal ⊢
  unfold scalar
  split
  case h_1 heq => exact absurd hc (by rw [(List.cons.inj heq).1]; decide)
  case h_2 heq => exact absurd hc (by rw [(List.cons.inj heq).1]; decide)
  case h_3 heq => exact absurd heq (hradix (by decide))
  case h_4 heq => exact absurd heq (hradix (by decide))
  case h_5 heq => exact absurd heq (hradix (by decide))
  case h_6 heq => exact absurd hc (by rw [(List.cons.inj heq).1]; decide)
  case h_7 heq => exact absurd hc (by rw [(List.cons.inj heq).1]; decide)
  case h_8 =>
    rw [hmoment, hdecimal]
    rfl

end Natural

/-! ## 括弧を持たない値 -/

/-- 括弧を持たない値の頭になる文字。 -/
def startsScalar (c : Char) : Bool :=
  c == '"' || c == '\'' || c == 't' || c == 'f' || c.isDigit

theorem ne_of_startsScalar {c d : Char} (hc : startsScalar c = true)
    (hd : startsScalar d = false) : c ≠ d := by
  rintro rfl
  rw [hd] at hc
  cases hc

theorem skipBlank_cons {c : Char} (hc : isBlank c = false) (cs : List Char) :
    skipBlank (c :: cs) = c :: cs :=
  List.dropWhile_cons_of_neg (by rw [hc]; decide)

theorem skipLines_cons {c : Char} (hblank : isBlank c = false)
    (hc : c ∉ ['\n', '\r', '#']) (cs : List Char) : skipLines false (c :: cs) = c :: cs := by
  simp only [List.mem_cons, List.not_mem_nil, or_false, not_or] at hc
  rw [skipLines, if_neg Bool.false_ne_true, if_neg (by rw [hblank]; decide), if_neg hc.2.2]
  · exact hc.1
  · exact fun _ heq => absurd heq hc.2.1

section Scalar

variable {t : Tree}

theorem exists_inlineValue_eq_cons (h : t.isScalar = true) :
    ∃ c cs, inlineValue t = c :: cs ∧ startsScalar c = true := by
  cases t with
  | text s =>
      obtain ⟨c, cs, hs, hc⟩ := exists_quoted_eq_cons s
      exact ⟨c, cs, by rw [inlineValue, hs], by obtain rfl | rfl := hc <;> rfl⟩
  | flag b => cases b <;> exact ⟨_, _, by rw [inlineValue]; rfl, rfl⟩
  | natural n =>
      obtain ⟨c, cs, hdigits, hc, -⟩ := exists_toDigits_eq_cons n
      refine ⟨c, cs, ?_, by rw [startsScalar, hc, Bool.or_true]⟩
      rw [inlineValue, Nat.toString_eq_ofList_toDigits, String.toList_ofList, hdigits]
  | list => cases h
  | record => cases h

theorem scalar_inlineValue (hscalar : t.isScalar = true) (ht : t.Regular) (h : Follows rest) :
    scalar (inlineValue t ++ rest) = some (nodeOf t, rest) := by
  cases t with
  | text s =>
      obtain ⟨c, cs, hs, hc⟩ := exists_quoted_eq_cons s
      have htext := text_quoted s h
      rw [inlineValue, nodeOf]
      rw [hs, List.cons_append] at htext ⊢
      have hread : (text (c :: (cs ++ rest))).map (fun r => (Node.text r.1, r.2)) =
          some (.text s, rest) := congrArg _ htext
      obtain rfl | rfl := hc <;> exact hread
  | flag b =>
      obtain ⟨c, tail, rfl, -⟩ := h
      cases b <;> rw [inlineValue, nodeOf] <;> rfl
  | natural n =>
      rw [inlineValue, nodeOf, Nat.toString_eq_ofList_toDigits, String.toList_ofList]
      exact scalar_toDigits ht h
  | list => cases hscalar
  | record => cases hscalar

theorem value_inlineValue (depth : Nat) (hscalar : t.isScalar = true) (ht : t.Regular)
    (h : Follows rest) : value depth (inlineValue t ++ rest) = some (nodeOf t, rest) := by
  have hread := scalar_inlineValue hscalar ht h
  obtain ⟨c, cs, ht, hc⟩ := exists_inlineValue_eq_cons hscalar
  rw [ht, List.cons_append] at hread ⊢
  unfold value
  split
  case h_1 heq => exact absurd (List.cons.inj heq).1 (ne_of_startsScalar hc rfl)
  case h_2 heq => exact absurd (List.cons.inj heq).1 (ne_of_startsScalar hc rfl)
  case h_3 => exact hread

theorem isBlank_of_startsScalar {c : Char} (h : startsScalar c = true) : isBlank c = false := by
  simp [isBlank, ne_of_startsScalar h (d := ' ') rfl, ne_of_startsScalar h (d := '\t') rfl]

theorem skipLines_inlineValue (hscalar : t.isScalar = true) :
    skipLines false (inlineValue t ++ rest) = inlineValue t ++ rest := by
  obtain ⟨c, cs, ht, hc⟩ := exists_inlineValue_eq_cons hscalar
  rw [ht, List.cons_append, skipLines_cons (isBlank_of_startsScalar hc)]
  simp [ne_of_startsScalar hc (d := '\n') rfl, ne_of_startsScalar hc (d := '\r') rfl,
    ne_of_startsScalar hc (d := '#') rfl]

end Scalar

/-! ## 並び -/

section Items

variable {t : Tree} {ts : List Tree}

theorem items_inlineValue {depth : Nat} {cs tail : List Char} (hscalar : t.isScalar = true)
    (hcs : skipLines false cs = inlineValue t ++ tail) :
    items (value depth) cs =
      match value depth (inlineValue t ++ tail) with
      | none => none
      | some (node, rest) =>
        match skipLines false rest with
        | ']' :: rest => some ([node], rest)
        | ',' :: rest =>
          if rest.length < cs.length then
            (items (value depth) rest).map fun (nodes, rest) => (node :: nodes, rest)
          else none
        | _ => none := by
  obtain ⟨c, cs', ht, hc⟩ := exists_inlineValue_eq_cons hscalar
  rw [items, hcs, ht, List.cons_append]
  split
  case h_1 heq => exact absurd (List.cons.inj heq).1 (ne_of_startsScalar hc rfl)
  case h_2 => rfl

/-- 最後の値には区切りがなくてもよい。 -/
theorem items_last (depth : Nat) (hscalar : t.isScalar = true) (ht : t.Regular) :
    items (value depth) (inlineValue t ++ ']' :: rest) = some ([nodeOf t], rest) := by
  rw [items_inlineValue hscalar (skipLines_inlineValue hscalar),
    value_inlineValue depth hscalar ht ⟨']', rest, rfl, by decide⟩]
  rfl

theorem items_cons {depth : Nat} {cs more : List Char} (hscalar : t.isScalar = true)
    (ht : t.Regular) (hcs : skipLines false cs = inlineValue t ++ ',' :: more)
    (hlength : more.length < cs.length) :
    items (value depth) cs =
      (items (value depth) more).map fun (nodes, rest) => (nodeOf t :: nodes, rest) := by
  rw [items_inlineValue hscalar hcs, value_inlineValue depth hscalar ht ⟨',', more, rfl, by decide⟩]
  exact if_pos hlength

theorem items_lines (depth : Nat) (hscalar : ts.all Tree.isScalar = true)
    (hts : Tree.RegularItems ts) :
    items (value depth) ((inlineItems ts).flatMap (fun part => "\n    ".toList ++ part ++ [',']) ++
      '\n' :: ']' :: rest) = some (itemNodes ts, rest) := by
  induction ts with
  | nil =>
      rw [inlineItems, List.flatMap_nil, List.nil_append, items]
      rfl
  | cons t ts ih =>
      rw [List.all_cons, Bool.and_eq_true] at hscalar
      rw [Tree.RegularItems] at hts
      have hskip (cs : List Char) : skipLines false ("\n    ".toList ++ cs) = skipLines false cs := rfl
      rw [inlineItems, itemNodes, List.flatMap_cons, List.append_assoc, List.append_assoc,
        List.append_assoc, List.singleton_append, items_cons hscalar.1 hts.1 ((hskip _).trans
          (skipLines_inlineValue hscalar.1)), ih hscalar.2 hts.2]
      · rfl
      · simp only [List.length_append, List.length_cons]
        omega

/-- 見出しをつけずに書く並びの値は、括弧を持たない。 -/
theorem all_isScalar_of_hasHeading (h : hasHeading (.list ts) = false)
    (ht : (Tree.list ts).Regular) : ts.all Tree.isScalar = true := by
  rw [Tree.Regular] at ht
  cases ts with
  | nil => rfl
  | cons t ts =>
      refine ht.1.resolve_right fun hrecord => ?_
      rw [hasHeading, hrecord] at h
      cases h

theorem value_plain (h : hasHeading t = false) (ht : t.Regular) (hrest : Follows rest) :
    value limit (inlineValue t ++ rest) = some (nodeOf t, rest) := by
  cases t with
  | text | flag | natural => exact value_inlineValue limit rfl ht hrest
  | record => cases h
  | list ts =>
      have hscalar := all_isScalar_of_hasHeading h ht
      rw [Tree.Regular] at ht
      have hvalue (cs : List Char) : value limit ('[' :: cs) =
          (items (value 78) cs).map fun (nodes, rest) => (.list nodes, rest) := rfl
      rcases ts with _ | ⟨t, _ | ⟨t', ts⟩⟩
      · have hitems : items (value 78) (']' :: rest) = some ([], rest) := by rw [items]; rfl
        rw [inlineValue, inlineItems]
        exact (hvalue _).trans (congrArg _ hitems)
      · rw [List.all_cons, Bool.and_eq_true] at hscalar
        rw [Tree.RegularItems] at ht
        rw [inlineValue, inlineItems, inlineItems, nodeOf, h, itemNodes, itemNodes]
        change value limit ('[' :: (inlineValue t ++ [']'] ++ rest)) = _
        rw [hvalue, List.append_assoc, List.singleton_append, items_last 78 hscalar.1 ht.2.1]
        rfl
      · have hitems : items (value 78) (_ ++ '\n' :: ']' :: rest) = _ := items_lines 78 hscalar ht.2
        have hvalue' := congrArg (Option.map fun (nodes, rest) => (Node.list nodes, rest)) hitems
        rw [← hvalue] at hvalue'
        rw [inlineValue, inlineItems, inlineItems, nodeOf, h, List.append_assoc]
        exact hvalue'

theorem skipBlank_plain (h : hasHeading t = false) :
    skipBlank (inlineValue t ++ rest) = inlineValue t ++ rest := by
  have hscalar {t : Tree} (hscalar : t.isScalar = true) :
      skipBlank (inlineValue t ++ rest) = inlineValue t ++ rest := by
    obtain ⟨c, cs, ht, hc⟩ := exists_inlineValue_eq_cons hscalar
    rw [ht]
    exact skipBlank_cons (isBlank_of_startsScalar hc) _
  cases t with
  | record => cases h
  | list ts =>
      rw [inlineValue]
      split <;> exact skipBlank_cons rfl _
  | text | flag | natural => exact hscalar rfl

end Items

end SpecLineage.Toml
