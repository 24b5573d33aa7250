import Mathlib.Data.List.TakeDrop
import Mathlib.Logic.Relation
import SpecLineage.Proofs.Data.Regular
import SpecLineage.Proofs.Yaml.Text
import SpecLineage.Yaml.Token

/-!
# 書いた YAML の字句の読み

字句を一つ読む歩みを重ねて、一つの値の後の行の頭まで進む。値の後で行を改めれば、鍵かもしれない所は忘れられ、浅くなった
字下げが閉じる。行の頭でどの字下げが閉じるかは次の行の字下げで決まるので、`Lands` は次の行がどこまで浅くてもよい形で
述べる。
-/

namespace SpecLineage.Yaml

/-! ## 位置 -/

namespace Position

/-- 文字の列 `cs` だけ進んだ位置。 -/
def advance (p : Position) (cs : List Char) : Position := cs.foldl Position.step p

theorem advance_append (p : Position) (cs ds : List Char) :
    p.advance (cs ++ ds) = (p.advance cs).advance ds := List.foldl_append

theorem line_le_step (p : Position) (c : Char) : p.line ≤ (p.step c).line := by
  rw [step]
  split
  · exact Nat.le_succ _
  · exact Nat.le_refl _

theorem line_le_advance (cs : List Char) (p : Position) : p.line ≤ (p.advance cs).line := by
  induction cs generalizing p with
  | nil => exact Nat.le_refl _
  | cons c cs ih => exact Nat.le_trans (p.line_le_step c) (ih (p.step c))

theorem advance_of_forall {cs : List Char} (h : ∀ c ∈ cs, isBreak c = false) (p : Position) :
    (p.advance cs).line = p.line ∧ (p.advance cs).column = p.column + cs.length := by
  induction cs generalizing p with
  | nil => exact ⟨rfl, rfl⟩
  | cons c cs ih =>
      obtain ⟨hc, hcs⟩ := List.forall_mem_cons.mp h
      obtain ⟨hline, hcolumn⟩ := ih hcs (p.step c)
      have hstep : (p.step c).line = p.line ∧ (p.step c).column = p.column + 1 := by
        simp only [step, hc, Bool.false_eq_true, ↓reduceIte, and_self]
      change ((p.step c).advance cs).line = _ ∧ ((p.step c).advance cs).column = _
      rw [hline, hcolumn, hstep.1, hstep.2, List.length_cons]
      exact ⟨rfl, by omega⟩

theorem isBreak_spaces (k : Nat) : ∀ c ∈ spaces k, isBreak c = false := by
  intro c hc
  rw [List.eq_of_mem_replicate hc]
  decide

/-- 改行の後の字下げの幅が、行の中の位置になる。 -/
theorem advance_newline (p : Position) (cs : List Char) {b : Char} (hb : isBreak b = true)
    (k : Nat) : p.line < (p.advance (cs ++ b :: spaces k)).line ∧
      (p.advance (cs ++ b :: spaces k)).column = k := by
  have hstep (q : Position) : (q.step b).line = q.line + 1 ∧ (q.step b).column = 0 := by
    simp only [step, hb, ↓reduceIte, and_self]
  obtain ⟨hline, hcolumn⟩ := advance_of_forall (isBreak_spaces k) ((p.advance cs).step b)
  rw [advance_append]
  change p.line < (((p.advance cs).step b).advance (spaces k)).line ∧
    (((p.advance cs).step b).advance (spaces k)).column = k
  rw [hline, hcolumn, (hstep _).1, (hstep _).2, Nat.zero_add]
  exact ⟨Nat.lt_succ_of_le (line_le_advance cs p), List.length_replicate⟩

theorem offset_advance_le (cs : List Char) (p : Position) :
    (p.advance cs).offset ≤ p.offset + 4 * cs.length := by
  induction cs generalizing p with
  | nil => exact Nat.le_refl _
  | cons c cs ih =>
      have hstep : (p.step c).offset = p.offset + c.utf8Size := by
        rw [step]; split <;> rfl
      have hrest := ih (p.step c)
      have hsize := c.utf8Size_le_four
      change ((p.step c).advance cs).offset ≤ _
      rw [List.length_cons]
      omega

end Position

namespace Scan

theorem moveTo_eq {s : Scan} (pre : List Char) {rest : List Char} (h : s.rest = pre ++ rest) :
    s.moveTo rest = { s with rest, position := s.position.advance pre } := by
  rw [moveTo, h, List.length_append, Nat.add_sub_cancel, List.take_left']
  · rfl
  · rfl

/-! ## 歩み -/

/-- 字句を一つ読む歩み。 -/
def Step (s s' : Scan) : Prop :=
  ∃ t c cs, s.settle = some t ∧ t.rest = c :: cs ∧ t.next c cs = some s' ∧
    s'.rest.length < s.rest.length

/-- 字句をいくつか読む歩み。 -/
abbrev Steps : Scan → Scan → Prop := Relation.ReflTransGen Step

/-- 歩みの先で読み終える字句は、歩みの元で読み終える字句である。 -/
theorem run_of_steps {s s' : Scan} {ts : List Token} (h : Steps s s')
    (hrun : ∀ fuel, s'.rest.length < fuel → run fuel s' = some ts) :
    ∀ fuel, s.rest.length < fuel → run fuel s = some ts := by
  induction h using Relation.ReflTransGen.head_induction_on with
  | refl => exact hrun
  | head hstep _ ih =>
      obtain ⟨t, c, cs, hsettle, hrest, hnext, hlt⟩ := hstep
      rintro (_ | fuel) hfuel
      · exact absurd hfuel (Nat.not_lt_zero _)
      · rw [run]
        simp only [hsettle, Option.bind_eq_bind, Option.bind_some, hrest, hnext]
        exact ih fuel (by omega)

/-! ## 行の頭まで -/

/-- 字句の間で止まっている様子。鍵かもしれない所はない。字句は新しいものが先頭にある。 -/
structure Stands (s : Scan) (ts : List Token) (indents : List Nat) (column : Nat)
    (keyAllowed : Bool) (rest : List Char) : Prop where
  rest : s.rest = rest
  column : s.position.column = column
  candidate : s.frame.candidate = none
  tokens : s.frame.tokens = ts
  outer : s.outer = []
  indents : s.indents = indents
  keyAllowed : s.keyAllowed = keyAllowed

/-- 値を読み終えた様子。鍵かもしれない所は、あっても鍵でなくてよく、行 `line` までにある。 -/
structure Spent (s : Scan) (ts : List Token) (indents : List Nat) (line : Nat)
    (rest : List Char) : Prop where
  rest : s.rest = rest
  candidate : ∀ k ∈ s.frame.candidate, k.required = false ∧ k.position.line ≤ line
  tokens : s.frame.tokens = ts
  outer : s.outer = []
  indents : s.indents = indents

/-- 幅 `k` より深い字下げを閉じる字句。 -/
def closings (k : Nat) (indents : List Nat) : List Token :=
  List.replicate (indents.takeWhile (k < ·)).length .blockEnd

theorem foldl_emit (is : List Nat) (s : Scan) :
    is.foldl (fun s _ => s.emit .blockEnd) s =
      { s with frame := { s.frame with
          since := List.replicate is.length .blockEnd ++ s.frame.since } } := by
  induction is generalizing s with
  | nil => rfl
  | cons i is ih =>
      rw [List.foldl_cons, ih, List.length_cons, List.replicate_succ']
      simp only [emit, Frame.emit, List.append_assoc, List.singleton_append]

theorem closings_eq_nil (k : Nat) (indents : List Nat) (h : ∀ i ∈ indents.head?, i ≤ k) :
    closings k indents = [] ∧ indents.dropWhile (k < ·) = indents := by
  cases indents with
  | nil => exact ⟨rfl, rfl⟩
  | cons i is =>
      have hi : ¬k < i := Nat.not_lt.mpr (h i rfl)
      simp only [closings, List.takeWhile_cons, List.dropWhile_cons, hi, decide_false,
        Bool.false_eq_true, ↓reduceIte, List.length_nil, List.replicate_zero, and_self]

theorem unroll_eq {s : Scan} (h : s.outer = []) (k : Nat) :
    s.unroll (some k) = { s with
      indents := s.indents.dropWhile (k < ·)
      frame := { s.frame with since := closings k s.indents ++ s.frame.since } } := by
  have hflow : s.inFlow = false := by rw [inFlow, h]; rfl
  rw [unroll, hflow, if_neg Bool.false_ne_true, List.span_eq_takeWhile_dropWhile]
  simp only [foldl_emit, closings]
  rfl

theorem unroll_eq_self {s : Scan} (houter : s.outer = []) {k : Nat}
    (h : ∀ i ∈ s.indents.head?, i ≤ k) : s.unroll (some k) = s := by
  obtain ⟨hnone, hsame⟩ := closings_eq_nil _ _ h
  rw [unroll_eq houter, hnone, hsame]
  rfl

/-- 字句の間を飛ばして、次の字句の前で止まる。その間に行を改めれば、鍵かもしれない所は忘れられる。 -/
theorem Spent.settle {s : Scan} {ts : List Token} {indents : List Nat} {line : Nat}
    (pre : List Char) {rest : List Char} {keyAllowed : Bool}
    (h : s.Spent ts indents line (pre ++ rest))
    (hgap : ∀ part, part ≠ .comment →
      gap false s.keyAllowed part (pre ++ rest) = (keyAllowed, rest))
    (hcandidate : s.frame.candidate = none ∨ line < (s.position.advance pre).line) :
    ∃ t, s.settle = some t ∧ t.Stands (closings (s.position.advance pre).column indents ++ ts)
      (indents.dropWhile ((s.position.advance pre).column < ·)) (s.position.advance pre).column
      keyAllowed rest := by
  have hflow : s.inFlow = false := by rw [inFlow, h.outer]; rfl
  have hexpire : ∃ f : Frame, s.frame.expire (s.position.advance pre) = some f ∧
      f.candidate = none ∧ f.tokens = ts := by
    rw [Frame.expire, Frame.forget]
    cases hk : s.frame.candidate with
    | none => exact ⟨s.frame, rfl, hk, h.tokens⟩
    | some k =>
        -- 鍵は行をまたがないので、行を改めれば忘れられる。
        obtain ⟨hrequired, hline⟩ := h.candidate k hk
        have hlt := hcandidate.resolve_left (by simp [hk])
        refine ⟨{ s.frame with candidate := none }, ?_, rfl, h.tokens⟩
        simp only [hrequired, Nat.lt_of_le_of_lt hline hlt, true_or, Bool.false_eq_true, ↓reduceIte]
  obtain ⟨f, hf, hnone, htokens⟩ := hexpire
  have hpart : (if s.position.column = 0 then GapPart.lineStart else .blank) ≠ .comment := by
    split <;> exact GapPart.noConfusion
  rw [Scan.settle]
  simp only [h.rest, hflow, hgap _ hpart, moveTo_eq pre h.rest, allow, Scan.expire, hf, h.outer,
    List.mapM_nil, Option.bind_eq_bind, Option.bind_some, Option.pure_def]
  rw [unroll_eq rfl]
  refine ⟨_, rfl, rfl, rfl, hnone, ?_, rfl, ?_, rfl⟩
  · simp only [Frame.tokens, List.append_assoc, h.indents]
    exact congrArg _ htokens
  · simp only [h.indents]

theorem Stands.spent {s : Scan} {ts : List Token} {indents : List Nat} {column : Nat}
    {keyAllowed : Bool} {rest : List Char} (h : s.Stands ts indents column keyAllowed rest)
    (line : Nat) : s.Spent ts indents line rest where
  rest := h.rest
  candidate k hk := by rw [h.candidate] at hk; cases hk
  tokens := h.tokens
  outer := h.outer
  indents := h.indents

/-! ### 空き -/

theorem gap_visible (inFlow keyAllowed : Bool) {part : GapPart} (hpart : part ≠ .comment) {c : Char}
    (hc : isVisible c = true) (cs : List Char) :
    gap inFlow keyAllowed part (c :: cs) = (keyAllowed, c :: cs) := by
  obtain ⟨hblank, hbreak, hhash, hmark⟩ := isVisible_iff.mp hc
  simp only [isBlank, Bool.or_eq_false_iff, beq_eq_false_iff_ne] at hblank
  rw [gap]
  simp [hbreak, hpart, hblank, hhash, hmark]

theorem gap_spaces (inFlow keyAllowed : Bool) {part : GapPart} (hpart : part ≠ .comment) {k : Nat}
    {rest : List Char} (h : Resumes k rest) :
    gap inFlow keyAllowed part (spaces k ++ rest) = (keyAllowed, rest) := by
  have hend {part : GapPart} (hpart : part ≠ .comment) :
      gap inFlow keyAllowed part rest = (keyAllowed, rest) := by
    obtain ⟨-, rfl⟩ | ⟨c, cs, rfl, hc⟩ := h
    · rw [gap]
    · exact gap_visible inFlow keyAllowed hpart hc cs
  clear h
  induction k generalizing part with
  | zero => exact hend hpart
  | succ k ih =>
      have hspace : isBreak ' ' = false := by decide
      rw [spaces, List.replicate_succ, List.cons_append, gap]
      simp only [hspace, hpart, beq_self_eq_true, Bool.true_or, Bool.false_eq_true, ↓reduceIte]
      exact ih GapPart.noConfusion

/-- 次の行の頭まで読む。`text` は行の頭からの残りで、その行の字下げは今の字下げを越えない。 -/
def Lands (s : Scan) (ts : List Token) (indent : Nat) (stack : List Nat) (text : List Char) : Prop :=
  ∀ k rest, text = spaces k ++ rest → Resumes k rest → k ≤ indent → ∃ s' t, Steps s s' ∧
    s'.settle = some t ∧ t.Stands (closings k (indent :: stack) ++ ts)
      ((indent :: stack).dropWhile (k < ·)) k true rest

variable {s s' : Scan} {ts : List Token} {indent : Nat} {stack : List Nat} {text : List Char}

theorem Lands.of_steps (hsteps : Steps s s') (h : s'.Lands ts indent stack text) :
    s.Lands ts indent stack text := fun k rest htext hrest hk => by
  obtain ⟨u, t, hu, hsettle, ht⟩ := h k rest htext hrest hk
  exact ⟨u, t, hsteps.trans hu, hsettle, ht⟩

theorem Lands.close (h : s.Lands ts (indent + 2) (indent :: stack) text) :
    s.Lands (.blockEnd :: ts) indent stack text := fun k rest htext hrest hk => by
  obtain ⟨u, t, hu, hsettle, ht⟩ := h k rest htext hrest (by omega)
  have hlt : k < indent + 2 := by omega
  have hclosings : closings k ((indent + 2) :: indent :: stack) ++ ts =
      closings k (indent :: stack) ++ .blockEnd :: ts := by
    rw [closings, List.takeWhile_cons_of_pos (by simpa using hlt), List.length_cons,
      List.replicate_succ', List.append_assoc, List.singleton_append, closings]
  rw [hclosings, List.dropWhile_cons_of_pos (by simpa using hlt)] at ht
  exact ⟨u, t, hu, hsettle, ht⟩

/-- 値の後で行を改め、次の行の字下げまで進む。 -/
theorem Spent.settle_newline {indents : List Nat} {line k : Nat} {rest : List Char}
    (h : s.Spent ts indents line ('\n' :: (spaces k ++ rest))) (hle : line ≤ s.position.line)
    (hrest : Resumes k rest) :
    ∃ t, s.settle = some t ∧
      t.Stands (closings k indents ++ ts) (indents.dropWhile (k < ·)) k true rest := by
  obtain ⟨hline, hcolumn⟩ := s.position.advance_newline [] (b := '\n') rfl k
  have hgap : ∀ part, part ≠ .comment →
      gap false s.keyAllowed part (('\n' :: spaces k) ++ rest) = (true, rest) := fun part _ => by
    rw [List.cons_append, gap]
    simp only [isBreak, beq_self_eq_true, Bool.true_or, ↓reduceIte, Bool.not_false, Bool.or_true]
    exact gap_spaces false true GapPart.noConfusion hrest
  have hsettle := Spent.settle ('\n' :: spaces k) h hgap
    (.inr (Nat.lt_of_le_of_lt hle hline))
  rw [List.nil_append] at hcolumn
  rwa [hcolumn] at hsettle

theorem Spent.lands {line : Nat} (h : s.Spent ts (indent :: stack) line ('\n' :: text))
    (hle : line ≤ s.position.line) : s.Lands ts indent stack text := fun k rest htext hrest _ => by
  subst htext
  obtain ⟨t, hsettle, ht⟩ := h.settle_newline hle hrest
  exact ⟨s, t, .refl, hsettle, ht⟩

theorem length_gap_le (inFlow keyAllowed : Bool) (part : GapPart) (cs : List Char) :
    (gap inFlow keyAllowed part cs).2.length ≤ cs.length := by
  fun_induction gap inFlow keyAllowed part cs <;> simp_all <;> omega

theorem rest_unroll (s : Scan) (column : Option Nat) : (s.unroll column).rest = s.rest := by
  rw [unroll]
  split
  · rfl
  · simp only [foldl_emit]

theorem rest_expire {t : Scan} (h : s.expire = some t) : t.rest = s.rest := by
  simp only [expire, Option.bind_eq_bind, Option.pure_def, Option.bind_eq_some_iff,
    Option.some.injEq] at h
  obtain ⟨_, -, _, -, rfl⟩ := h
  rfl

theorem length_settle_le {t : Scan} (h : s.settle = some t) : t.rest.length ≤ s.rest.length := by
  simp only [Scan.settle, Option.bind_eq_bind, Option.pure_def, Option.bind_eq_some_iff,
    Option.some.injEq] at h
  obtain ⟨u, hu, rfl⟩ := h
  rw [rest_unroll, rest_expire hu]
  exact length_gap_le _ _ _ _

theorem Step.of_settle {t : Scan} {c : Char} {cs : List Char} (hsettle : s.settle = some t)
    (hrest : t.rest = c :: cs) (hnext : t.next c cs = some s')
    (hlength : s'.rest.length ≤ cs.length) : Step s s' := by
  have hle := length_settle_le hsettle
  rw [hrest, List.length_cons] at hle
  exact ⟨t, c, cs, hsettle, hrest, hnext, by omega⟩

/-- 行の頭まで読み終えていれば、そこで止まる。 -/
theorem Spent.settle_here {indents : List Nat} {line k : Nat} {rest : List Char}
    (h : s.Spent ts indents line rest) (hkey : s.keyAllowed = true) (hrest : Resumes k rest)
    (hline : line < s.position.line) (hcolumn : s.position.column = k) :
    ∃ t, s.settle = some t ∧
      t.Stands (closings k indents ++ ts) (indents.dropWhile (k < ·)) k true rest := by
  have hgap : ∀ part, part ≠ .comment →
      gap false s.keyAllowed part ([] ++ rest) = (true, rest) := fun part hpart => by
    rw [hkey]
    exact gap_spaces (k := 0) false true hpart hrest.zero
  have hsettle := Spent.settle [] h hgap (.inr hline)
  rwa [show s.position.advance [] = s.position from rfl, hcolumn] at hsettle

/-! ## 一つの字句 -/

theorem Stands.settle_blank {n : Nat} {keyAllowed : Bool} {c : Char} {cs : List Char}
    (h : s.Stands ts (indent :: stack) n keyAllowed (' ' :: c :: cs)) (hn : indent ≤ n)
    (hc : isVisible c = true) :
    ∃ t, s.settle = some t ∧ t.Stands ts (indent :: stack) (n + 1) keyAllowed (c :: cs) := by
  have hgap : ∀ part, part ≠ .comment →
      gap false s.keyAllowed part ([' '] ++ c :: cs) = (keyAllowed, c :: cs) := fun part hpart => by
    rw [h.keyAllowed]
    exact gap_spaces (k := 1) false keyAllowed hpart (.inr ⟨c, cs, rfl, hc⟩)
  obtain ⟨t, hsettle, ht⟩ := Spent.settle [' '] (h.spent 0) hgap (.inl h.candidate)
  obtain ⟨-, hcolumn⟩ := s.position.advance_of_forall
    (List.forall_mem_singleton.mpr (show isBreak ' ' = false by rfl))
  obtain ⟨hnone, hsame⟩ := closings_eq_nil (n + 1) (indent :: stack) fun i hi => by
    rw [← Option.some.inj hi]; omega
  rw [hcolumn, h.column, List.length_singleton, hnone, hsame] at ht
  exact ⟨t, hsettle, ht⟩

section Lead

variable {t : Scan} {indents : List Nat} {n line : Nat} {keyAllowed : Bool} {pre rest : List Char}

theorem push_eq (pre : List Char) (h : s.rest = pre ++ rest) (token : Token) :
    s.push token rest =
      { s with rest, position := s.position.advance pre, frame := s.frame.emit token } :=
  moveTo_eq (s := s.emit token) pre h

theorem Spent.allow (h : s.Spent ts indents line rest) (keyAllowed : Bool) :
    (s.allow keyAllowed).Spent ts indents line rest :=
  ⟨h.rest, h.candidate, h.tokens, h.outer, h.indents⟩

theorem Spent.push (pre : List Char) (h : s.Spent ts indents line (pre ++ rest)) (token : Token) :
    (s.push token rest).Spent (token :: ts) indents line rest := by
  rw [push_eq pre h.rest]
  exact ⟨rfl, h.candidate, congrArg (token :: ·) h.tokens, h.outer, h.indents⟩

theorem Stands.inFlow (h : t.Stands ts indents n keyAllowed rest) : t.inFlow = false := by
  rw [Scan.inFlow, h.outer]
  rfl

theorem Stands.mark_true (h : t.Stands ts indents n true rest) :
    t.mark = some { t with frame := {
      before := ts, candidate := some ⟨t.position, indents.head? == some n⟩, since := [] } } := by
  rw [mark, h.keyAllowed, if_pos rfl, Frame.forget, h.candidate]
  simp only [Option.bind_eq_bind, Option.bind_some, h.inFlow, h.tokens, indent, h.indents, h.column]
  rfl

/-- 今の字下げより深い所の値は、鍵でなくてよい。 -/
theorem Stands.mark (h : t.Stands ts indents n keyAllowed rest) (hn : indents.head? ≠ some n) :
    ∃ u, t.mark = some u ∧ u.Spent ts indents t.position.line rest ∧ u.position = t.position ∧
      ∀ k ∈ u.frame.candidate, k.position = t.position := by
  cases keyAllowed with
  | false =>
      refine ⟨t, ?_, h.spent _, rfl, fun k hk => ?_⟩
      · rw [Scan.mark, h.keyAllowed, if_neg Bool.false_ne_true]
      · rw [h.candidate] at hk; cases hk
  | true =>
      refine ⟨_, h.mark_true, ⟨h.rest, fun k hk => ?_, List.nil_append ts, h.outer, h.indents⟩, rfl,
        fun k hk => ?_⟩
      · rw [← Option.some.inj hk]
        exact ⟨beq_eq_false_iff_ne.mpr hn, Nat.le_refl _⟩
      · rw [← Option.some.inj hk]

theorem Stands.lead (h : t.Stands ts indents n keyAllowed (pre ++ rest))
    (hn : indents.head? ≠ some n) (token : Token) :
    ∃ s', t.lead token rest = some s' ∧ s'.Spent (token :: ts) indents t.position.line rest ∧
      s'.position = t.position.advance pre := by
  obtain ⟨u, hmark, hu, hposition, -⟩ := h.mark hn
  refine ⟨(u.allow false).push token rest, by rw [Scan.lead, hmark]; rfl,
    (hu.allow false).push pre token, ?_⟩
  rw [push_eq pre (hu.allow false).rest, ← hposition]
  rfl

end Lead

/-! ## 文字列 -/

section Text

variable {t : Scan} {n : Nat} {keyAllowed : Bool} {cs tail : List Char}

theorem next_plain {c : Char} (hflow : t.inFlow = false)
    (hindicator : hasIndicator true true (c :: cs) = false) (htab : c ≠ '\t')
    (hmarker : t.position.column = 0 → isMarker (c :: (cs ++ tail)) = false) :
    t.next c (cs ++ tail) = t.readPlain := by
  simp only [hasIndicator, Bool.true_and, Bool.or_eq_false_iff, Bool.and_eq_false_iff,
    decide_eq_false_iff_not, beq_eq_false_iff_ne] at hindicator
  obtain ⟨⟨⟨⟨hspecial, hdash⟩, hcolon⟩, -⟩, -⟩ := hindicator
  have hspaced : c ∈ ['?', '-', ':'] → isSpaced (cs ++ tail) = false := fun hc => by
    have hcs : isSpaced cs = false := by
      simp only [List.mem_cons, List.not_mem_nil, or_false] at hc hdash
      obtain rfl | rfl | rfl := hc
      · simpa using hdash
      · simpa using hdash
      · simpa using hcolon
    rw [isSpaced_append (by rintro rfl; exact absurd hcs (by decide)), hcs]
  unfold next
  rw [if_neg (by rintro ⟨-, rfl⟩; exact hspecial (by decide)),
    if_neg (by rintro ⟨hcolumn, hc⟩; exact absurd hc (by simp [hmarker hcolumn]))]
  split
  all_goals first
    | rfl
    | exact absurd (by decide) hspecial
    | exact absurd rfl htab
    | rw [hspaced (by decide)]; simp [hflow]

theorem lands_plain (hsettle : s.settle = some t)
    (h : t.Stands ts (indent :: stack) n keyAllowed (cs ++ '\n' :: text)) (hn : indent < n)
    (hcs : allowsPlain cs = true) :
    s.Lands (.scalar .plain (String.ofList cs) :: ts) indent stack text :=
    fun k rest htext hrest hk => by
  subst htext
  obtain ⟨c, cs, rfl⟩ : ∃ c ds, cs = c :: ds :=
    List.exists_cons_of_ne_nil (by rintro rfl; exact absurd hcs (by decide))
  obtain ⟨hindicator, htab⟩ : hasIndicator true true (c :: cs) = false ∧ c ≠ '\t' := by
    simp only [allowsPlain, Bool.and_eq_true, Bool.not_eq_true'] at hcs
    exact ⟨hcs.2, ne_tab_of_isPrintable
      (isPrintable_of_needsEscape hcs.1.1.1.1.1.1.1 c List.mem_cons_self)⟩
  have hplain := plain_of_allowsPlain (indent + 1) hcs ('\n' :: (spaces k ++ rest))
  rw [plain_newline (by omega) hrest, Option.map_some, List.append_nil] at hplain
  have hpre : c :: cs ++ '\n' :: (spaces k ++ rest) = (c :: cs ++ '\n' :: spaces k) ++ rest := by
    simp only [List.append_assoc, List.cons_append]
  obtain ⟨s', hlead, hspent, hposition⟩ := Stands.lead (hpre ▸ h)
    (by simpa using Nat.ne_of_lt hn) (.scalar .plain (String.ofList (c :: cs)))
  have hnext : t.next c (cs ++ '\n' :: (spaces k ++ rest)) = some (s'.allow true) := by
    have hcolumn : t.position.column ≠ 0 := by rw [h.column]; omega
    rw [next_plain h.inFlow hindicator htab fun h0 => absurd h0 hcolumn, readPlain, h.inFlow,
      Scan.indent, h.indents, h.rest]
    simp only [List.head?_cons, Option.elim_some, hplain, Option.bind_eq_bind, Option.bind_some,
      hlead]
    rfl
  have hstart : t.rest = c :: (cs ++ '\n' :: (spaces k ++ rest)) := h.rest
  have hstep : Step s (s'.allow true) := .of_settle hsettle hstart hnext (by
    change s'.rest.length ≤ _
    rw [hspent.rest]
    simp only [List.length_append, List.length_cons]
    omega)
  -- 引用符のない文字列は、次の行の字下げまで読み進んで終わりを知る。
  obtain ⟨hline, hcolumn⟩ := t.position.advance_newline (c :: cs) (b := '\n') rfl k
  rw [← hposition] at hline hcolumn
  obtain ⟨u, hu, hstands⟩ := (hspent.allow true).settle_here rfl hrest hline hcolumn
  exact ⟨_, u, .single hstep, hu, hstands⟩

/-- 引用符で囲んだ文字列など、終わりが改行の前にある値を読む。 -/
theorem lands_lead {c : Char} {token : Token} (hsettle : s.settle = some t)
    (h : t.Stands ts (indent :: stack) n keyAllowed (c :: cs ++ '\n' :: text)) (hn : indent < n)
    (hnext : t.next c (cs ++ '\n' :: text) = t.lead token ('\n' :: text)) :
    s.Lands (token :: ts) indent stack text := by
  obtain ⟨s', hlead, hspent, hposition⟩ := h.lead (by simpa using Nat.ne_of_lt hn) token
  have hstart : t.rest = c :: (cs ++ '\n' :: text) := h.rest
  have hstep : Step s s' := .of_settle hsettle hstart (hnext.trans hlead) (by
    rw [hspent.rest]
    simp only [List.length_append, List.length_cons]
    omega)
  refine .of_steps (.single hstep) (hspent.lands ?_)
  rw [hposition]
  exact Position.line_le_advance _ _

theorem lands_single (hsettle : s.settle = some t)
    (h : t.Stands ts (indent :: stack) n keyAllowed
      ('\'' :: (singleBody (indent + 2) false cs ++ '\'' :: '\n' :: text)))
    (hn : indent < n) (hcs : allowsSingle cs = true) (hnewline : '\n' ∉ cs) :
    s.Lands (.scalar .single (String.ofList cs) :: ts) indent stack text := by
  have hread := single_of_allowsSingle (Nat.succ_pos (indent + 1)) hcs hnewline text
  have hcolumn : t.position.column ≠ 0 := by rw [h.column]; omega
  rw [List.append_cons] at h hread
  refine lands_lead hsettle h hn ?_
  rw [next, if_neg (by simp [hcolumn]), if_neg (by simp [hcolumn])]
  simp only [hread, Option.bind_eq_bind, Option.bind_some]

theorem lands_double (hsettle : s.settle = some t)
    (h : t.Stands ts (indent :: stack) n keyAllowed
      ('"' :: (cs.flatMap doubleChar ++ '"' :: '\n' :: text))) (hn : indent < n) :
    s.Lands (.scalar .double (String.ofList cs) :: ts) indent stack text := by
  have hread := double_body ('\n' :: text) cs []
  have hcolumn : t.position.column ≠ 0 := by rw [h.column]; omega
  rw [List.append_cons] at h hread
  refine lands_lead hsettle h hn ?_
  rw [next, if_neg (by simp [hcolumn]), if_neg (by simp [hcolumn])]
  rw [inLine_nil, List.nil_append] at hread
  simp only [hread, Option.bind_eq_bind, Option.bind_some]

theorem lands_literal (hsettle : s.settle = some t)
    (h : t.Stands ts (indent :: stack) n keyAllowed (literal (indent + 2) cs ++ text))
    (hn : indent < n) (hcs : allowsLiteral cs = true) :
    s.Lands (.scalar .literal (String.ofList cs) :: ts) indent stack text :=
    fun k rest htext hrest hk => by
  subst htext
  obtain ⟨marked, hmarked, hblock⟩ := block_literal hcs hk hrest
  obtain ⟨pre, b, hpre, hb⟩ := exists_literal_eq_concat (indent + 2) cs
  have hsplit : literal (indent + 2) cs ++ (spaces k ++ rest) = (pre ++ b :: spaces k) ++ rest := by
    rw [hpre, List.append_assoc, List.append_assoc, List.singleton_append, List.cons_append]
  have hpush := ((hsplit ▸ h).spent t.position.line).allow true |>.push _
    (.scalar .literal (String.ofList cs))
  have hstart : t.rest = '|' :: (marked ++ (spaces k ++ rest)) := by
    rw [h.rest, hmarked, List.cons_append]
  have hcolumn : t.position.column ≠ 0 := by rw [h.column]; omega
  have hforget : t.forget = some t := by
    rw [forget, Frame.forget, h.candidate]
    rfl
  have hnext : t.next '|' (marked ++ (spaces k ++ rest)) =
      some ((t.allow true).push (.scalar .literal (String.ofList cs)) rest) := by
    rw [next, if_neg (by simp [hcolumn]), if_neg (by simp [hcolumn])]
    simp only [h.inFlow, Bool.false_eq_true, ↓reduceIte, readBlock, hforget, Option.bind_eq_bind,
      Option.bind_some, Scan.indent, h.indents, List.head?_cons, hblock]
    rfl
  have hstep : Step s _ := .of_settle hsettle hstart hnext (by
    rw [hpush.rest]
    simp only [List.length_append]
    omega)
  have hposition : ((t.allow true).push (.scalar .literal (String.ofList cs)) rest).position =
      t.position.advance (pre ++ b :: spaces k) := by
    rw [push_eq (pre ++ b :: spaces k) (hsplit ▸ h).rest]
    rfl
  obtain ⟨hline, hcolumn⟩ := t.position.advance_newline pre hb k
  rw [← hposition] at hline hcolumn
  obtain ⟨u, hu, hstands⟩ := hpush.settle_here rfl hrest hline hcolumn
  exact ⟨_, u, .single hstep, hu, hstands⟩

theorem lands_text {str : String}
    (h : s.Stands ts (indent :: stack) n keyAllowed (' ' :: (textLines (indent + 2) str ++ text)))
    (hn : indent < n) : s.Lands (.scalar (styleOf str) str :: ts) indent stack text := by
  obtain ⟨c, cs, hcs, hc⟩ := exists_textLines_eq_cons (indent + 2) str
  have hblank := h
  rw [hcs, List.cons_append] at hblank
  obtain ⟨t, hsettle, ht⟩ := hblank.settle_blank (Nat.le_of_lt hn) hc
  rw [← List.cons_append, ← hcs] at ht
  have hstr := String.ofList_toList (s := str)
  obtain ⟨hstyle, hallows⟩ | ⟨hstyle, -, hallows⟩ | ⟨hstyle, hallows, hnewline⟩ | hstyle :=
    styleOf_cases str
  all_goals
    rw [textLines, hstyle] at ht
    simp only [List.append_assoc, List.cons_append, List.nil_append] at ht
    rw [hstyle, ← hstr]
  · exact lands_literal hsettle ht (by omega) hallows
  · exact lands_plain hsettle ht (by omega) hallows
  · exact lands_single hsettle ht (by omega) hallows hnewline
  · exact lands_double hsettle ht (by omega)

theorem lands_word (h : s.Stands ts (indent :: stack) n keyAllowed (' ' :: (cs ++ '\n' :: text)))
    (hn : indent < n) (hne : cs ≠ []) (hcs : ∀ c ∈ cs, IsWordChar c) :
    s.Lands (.scalar .plain (String.ofList cs) :: ts) indent stack text := by
  obtain ⟨c, ds, rfl⟩ := List.exists_cons_of_ne_nil hne
  obtain ⟨t, hsettle, ht⟩ :=
    h.settle_blank (Nat.le_of_lt hn) (hcs c List.mem_cons_self).isVisible
  exact lands_plain hsettle ht (by omega) (allowsPlain_of_word hne hcs)

end Text

/-! ## 字句のすぐ後 -/

theorem expire_eq_self {f : Frame} {p : Position}
    (h : ∀ k ∈ f.candidate, p.line ≤ k.position.line ∧ p.offset ≤ k.position.offset + 1024) :
    f.expire p = some f := by
  rw [Frame.expire]
  cases hk : f.candidate with
  | none => rfl
  | some k =>
      obtain ⟨hline, hoffset⟩ := h k hk
      exact if_neg (by omega)

/-- 次の字句のすぐ前にいて、忘れるものも閉じるものもなければ、動かない。 -/
theorem settle_eq_self {u : Scan} {c : Char} {cs : List Char} (hc : isVisible c = true)
    (hrest : u.rest = c :: cs) (hexpire : u.expire = some u)
    (hunroll : u.unroll (some u.position.column) = u) : u.settle = some u := by
  have hpart : (if u.position.column = 0 then GapPart.lineStart else .blank) ≠ .comment := by
    split <;> exact GapPart.noConfusion
  have hmove : u.moveTo (c :: cs) = u := by
    rw [moveTo_eq [] hrest, ← hrest]
    rfl
  have hallow : u.allow u.keyAllowed = u := rfl
  rw [settle]
  simp only [hrest, gap_visible u.inFlow u.keyAllowed hpart hc, hmove, hallow, hexpire, hunroll,
    Option.bind_eq_bind, Option.bind_some, Option.pure_def]

/-! ## 空の括弧 -/

/-- 括弧の内側。外側の字句は脇に置く。 -/
def inner (p : Scan) : Scan :=
  { p with frame := {}, outer := p.frame :: p.outer, keyAllowed := true }

section Brackets

variable {t p : Scan} {o c : Char} {indents : List Nat} {n line : Nat} {keyAllowed : Bool}
  {cs : List Char}

/-- 括弧を開いても、外側の鍵かもしれない所は忘れられない。 -/
theorem Stands.openFlow (h : t.Stands ts indents n keyAllowed (o :: cs))
    (hn : indents.head? ≠ some n) (ho : isBreak o = false) (token : Token) :
    ∃ p : Scan, t.openFlow token cs = some p.inner ∧
      p.Spent (token :: ts) indents t.position.line cs ∧
        p.position = t.position.advance [o] ∧ p.frame.expire p.position = some p.frame := by
  obtain ⟨u, hmark, hu, hposition, hcandidate⟩ := h.mark hn
  have hadvance : (u.push token cs).position = t.position.advance [o] := by
    rw [push_eq [o] hu.rest, ← hposition]
  obtain ⟨hline, -⟩ := t.position.advance_of_forall (List.forall_mem_singleton.mpr ho)
  have hoffset := t.position.offset_advance_le [o]
  refine ⟨u.push token cs, by rw [Scan.openFlow, hmark]; rfl, hu.push [o] token, hadvance,
    expire_eq_self fun k hk => ?_⟩
  rw [hcandidate k hk, hadvance]
  exact ⟨Nat.le_of_eq hline, Nat.le_trans hoffset (by rw [List.length_singleton]; omega)⟩

theorem Spent.settle_inner (h : p.Spent ts indents line (c :: cs)) (hc : isVisible c = true)
    (hexpire : p.frame.expire p.position = some p.frame) : p.inner.settle = some p.inner := by
  refine settle_eq_self hc h.rest ?_ (if_pos rfl)
  simp only [inner, expire, h.outer, List.mapM_cons, List.mapM_nil, hexpire]
  rfl

theorem closeFlow_inner (p : Scan) (token : Token) (cs : List Char) :
    p.inner.closeFlow token cs = some ((p.allow false).push token cs) := rfl

theorem lands_brackets {opening closing : Token} (ho : isVisible o = true) (hc : isVisible c = true)
    (hopen : ∀ (t : Scan) cs, t.position.column ≠ 0 → t.next o cs = t.openFlow opening cs)
    (hclose : ∀ (t : Scan) cs, t.position.column ≠ 0 → t.next c cs = t.closeFlow closing cs)
    (h : s.Stands ts (indent :: stack) n keyAllowed (' ' :: o :: c :: '\n' :: text))
    (hn : indent < n) : s.Lands (closing :: opening :: ts) indent stack text := by
  have hbreak : isBreak o = false := (isVisible_iff.mp ho).2.1
  obtain ⟨t, hsettle, ht⟩ := h.settle_blank (Nat.le_of_lt hn) ho
  obtain ⟨p, hopened, hp, hposition, hexpire⟩ :=
    ht.openFlow (by simpa using Nat.ne_of_lt (Nat.lt_succ_of_lt hn)) hbreak opening
  obtain ⟨hline, hcolumn⟩ := t.position.advance_of_forall (List.forall_mem_singleton.mpr hbreak)
  rw [← hposition] at hline hcolumn
  have hcolumn' : p.inner.position.column ≠ 0 := hcolumn.trans_ne (Nat.succ_ne_zero _)
  have hclosed := (hp.allow false).push [c] closing
  have hfirst : Step s p.inner :=
    .of_settle hsettle ht.rest ((hopen t _ (by rw [ht.column]; omega)).trans hopened)
      (Nat.le_of_eq (congrArg List.length hp.rest))
  have hsecond : Step p.inner ((p.allow false).push closing ('\n' :: text)) :=
    .of_settle (hp.settle_inner hc hexpire) hp.rest
      ((hclose p.inner _ hcolumn').trans (closeFlow_inner p _ _))
      (Nat.le_of_eq (congrArg List.length hclosed.rest))
  refine .of_steps (.tail (.single hfirst) hsecond) (hclosed.lands ?_)
  rw [push_eq (s := p.allow false) [c] hp.rest, ← hline]
  exact Position.line_le_advance [c] p.position

end Brackets

/-! ## 鍵と並びの印 -/

section Mark

variable {t : Scan} {indents : List Nat} {n : Nat} {cs v : List Char}

/-- 幅 `n` で `token` が開く字下げと、開いた後の字下げ。 -/
inductive Opens (token : Token) (n : Nat) (indents : List Nat) : List Token → List Nat → Prop
  /-- 今の字下げを続ける。 -/
  | same : indents.head? = some n → Opens token n indents [] indents
  /-- 深い字下げを開く。 -/
  | deeper : (∀ i ∈ indents.head?, i < n) → Opens token n indents [token] (n :: indents)

theorem roll_eq {token : Token} {opening : List Token} {indents' : List Nat} (houter : s.outer = [])
    (hindents : s.indents = indents) (h : Opens token n indents opening indents') :
    s.roll n token = { s with
      indents := indents', frame := { s.frame with since := opening ++ s.frame.since } } := by
  have hflow : s.inFlow = false := by rw [Scan.inFlow, houter]; rfl
  rw [roll, hflow, Bool.false_or, Scan.indent, hindents]
  cases h with
  | same hn =>
      rw [hn, Option.any_some, if_pos (by simp), ← hindents]
      rfl
  | deeper hn =>
      have hany : indents.head?.any (n ≤ ·) = false := by
        cases hhead : indents.head? with
        | none => rfl
        | some i => simpa using hn i hhead
      rw [hany, if_neg Bool.false_ne_true]
      rfl

theorem Opens.le {token : Token} {opening : List Token} {indents' : List Nat}
    (h : Opens token n indents opening indents') : ∀ i ∈ indents.head?, i ≤ n := fun i hi => by
  cases h with
  | same hn => rw [hn] at hi; exact Nat.le_of_eq (Option.some.inj hi).symm
  | deeper hn => exact Nat.le_of_lt (hn i hi)

/-- 区切りの点で、鍵かもしれない所が鍵になる。 -/
theorem value_eq {u : Scan} {k : Candidate} {opening : List Token} {indents' : List Nat}
    (houter : u.outer = []) (hcandidate : u.frame.candidate = some k)
    (hopens : Opens .recordStart k.position.column u.indents opening indents') (v : List Char) :
    u.value v = some (({ u with
      indents := indents', keyAllowed := false, frame := { u.frame with
        candidate := none, since := u.frame.since ++ Token.key :: opening } }).push .value v) := by
  have hroll := roll_eq (s := { u with frame := { u.frame with candidate := none, since := [] } })
    houter rfl hopens
  rw [value, hcandidate]
  simp only [hroll, List.append_nil]
  rfl

/-- 鍵を始めてよい所で `name` を読み、残りが `rest` になった様子。名の始まりは鍵かもしれない所である。 -/
def named (t : Scan) (name rest : List Char) : Scan :=
  { t with
    rest
    position := t.position.advance name
    keyAllowed := false
    frame := {
      before := t.frame.tokens
      candidate := some ⟨t.position, t.indents.head? == some t.position.column⟩
      since := [.scalar .plain (String.ofList name)] } }

section Name

variable {c : Char}

theorem Stands.next_name (h : t.Stands ts indents n true (c :: cs ++ ':' :: v))
    (hcs : ∀ d ∈ c :: cs, IsWordChar d) (hv : isSpaced v = true) :
    t.next c (cs ++ ':' :: v) = some (t.named (c :: cs) (':' :: v)) := by
  have hc := hcs c List.mem_cons_self
  have hcolon (m : Nat) : plain false m .none (':' :: v) = some ⟨[], false, ':' :: v⟩ := by
    rw [plain, if_neg (by decide)]
    simp [Gap.endsPlain, endsPlain, hv, Gap.isBroken]
  have hplain : plain false (indents.head?.elim 0 (· + 1)) .none (c :: cs ++ ':' :: v) =
      some ⟨c :: cs, false, ':' :: v⟩ := by
    rw [plain_of_allowsPlain _ (allowsPlain_of_word (List.cons_ne_nil c cs) hcs), hcolon,
      Option.map_some, List.append_nil]
  rw [next_plain h.inFlow (hasIndicator_of_word hcs true true) (hc.ne (by decide))
    fun _ => hc.isMarker _, readPlain, h.inFlow, Scan.indent, h.indents, h.rest, hplain]
  simp only [Option.bind_eq_bind, Option.bind_some, Scan.lead, h.mark_true]
  obtain rfl := h.tokens
  obtain rfl := h.indents
  obtain rfl := h.column
  let marked : Scan := { t with frame := {
    before := t.frame.tokens
    candidate := some ⟨t.position, t.indents.head? == some t.position.column⟩ } }
  have hpush := push_eq (s := marked.allow false) (c :: cs) h.rest
    (.scalar .plain (String.ofList (c :: cs)))
  exact congrArg (fun u : Scan => some (u.allow false)) hpush

/-- 短い名は行を改めないので、読み終えても鍵かもしれない。 -/
theorem Stands.settle_named (h : t.Stands ts indents n true (cs ++ c :: v))
    (hcs : ∀ d ∈ cs, IsWordChar d) (hlength : cs.length ≤ 256) (hn : ∀ i ∈ indents.head?, i ≤ n)
    (hc : isVisible c = true) :
    (t.named cs (c :: v)).settle = some (t.named cs (c :: v)) ∧
      (t.named cs (c :: v)).position.column = n + cs.length := by
  have hbreak : ∀ d ∈ cs, isBreak d = false := fun d hd =>
    (isVisible_iff.mp (hcs d hd).isVisible).2.1
  obtain ⟨hline, hcolumn⟩ := t.position.advance_of_forall hbreak
  rw [h.column] at hcolumn
  have hoffset := t.position.offset_advance_le cs
  have houter : (t.named cs (c :: v)).outer = [] := h.outer
  have hexpire : (t.named cs (c :: v)).frame.expire (t.named cs (c :: v)).position =
      some (t.named cs (c :: v)).frame := expire_eq_self fun k hk => by
    rw [← Option.some.inj hk]
    exact ⟨Nat.le_of_eq hline, Nat.le_trans hoffset (by simp only; omega)⟩
  refine ⟨settle_eq_self hc rfl ?_ (unroll_eq_self houter fun i hi => ?_), hcolumn⟩
  · simp only [expire, hexpire, houter, List.mapM_nil]
    rw [← houter]
    rfl
  · change i ≤ (t.position.advance cs).column
    rw [hcolumn]
    exact Nat.le_trans (hn i (h.indents ▸ hi)) (Nat.le_add_right _ _)

end Name

theorem steps_key {opening : List Token} {indents' : List Nat} (hsettle : s.settle = some t)
    (h : t.Stands ts indents n true (cs ++ ':' :: v))
    (hopens : Opens .recordStart n indents opening indents') (hne : cs ≠ [])
    (hlength : cs.length ≤ 256) (hcs : ∀ c ∈ cs, IsWordChar c) (hv : isSpaced v = true) :
    ∃ s', Steps s s' ∧
      s'.Stands (.value :: .scalar .plain (String.ofList cs) :: .key :: (opening ++ ts)) indents'
        (n + cs.length + 1) false v := by
  obtain ⟨c, cs, rfl⟩ := List.exists_cons_of_ne_nil hne
  obtain ⟨hsettle', hcolumn⟩ := h.settle_named hcs hlength hopens.le (by decide)
  -- 区切りの点を読むと、名の前に鍵の印が置かれる。
  obtain ⟨u, hu⟩ : ∃ u : Scan, u = { t.named (c :: cs) (':' :: v) with
      indents := indents', keyAllowed := false, frame := {
        before := ts, candidate := none
        since := .scalar .plain (String.ofList (c :: cs)) :: .key :: opening } } := ⟨_, rfl⟩
  have hnext : (t.named (c :: cs) (':' :: v)).next ':' v = some (u.push .value v) := by
    have hne' : (t.named (c :: cs) (':' :: v)).position.column ≠ 0 := by
      rw [hcolumn, List.length_cons]; exact Nat.succ_ne_zero _
    have hopens' : Opens .recordStart t.position.column t.indents opening indents' := by
      rwa [h.indents, h.column]
    rw [next, if_neg (by simp [hne']), if_neg (by simp [hne'])]
    simp only [hv, Bool.or_true, ↓reduceIte]
    rw [value_eq (u := t.named (c :: cs) (':' :: v)) h.outer rfl hopens', hu, ← h.tokens]
    rfl
  have hpush : u.push .value v = _ := push_eq [':'] (by rw [hu]; rfl) .value
  have hstart : t.rest = c :: (cs ++ ':' :: v) := h.rest
  have hfirst : Step s (t.named (c :: cs) (':' :: v)) :=
    .of_settle hsettle hstart (h.next_name hcs hv) (by
      change (':' :: v).length ≤ _
      simp only [List.length_append]
      omega)
  have hsecond : Step (t.named (c :: cs) (':' :: v)) (u.push .value v) :=
    .of_settle hsettle' rfl hnext (by rw [hpush])
  obtain ⟨-, hadvance⟩ := (t.named (c :: cs) (':' :: v)).position.advance_of_forall
    (List.forall_mem_singleton.mpr (show isBreak ':' = false by rfl))
  refine ⟨_, .tail (.single hfirst) hsecond, ?_⟩
  rw [hpush]
  subst hu
  exact ⟨rfl, hadvance.trans (congrArg (· + 1) hcolumn), rfl, rfl, h.outer, rfl, rfl⟩

theorem steps_entry {opening : List Token} {indents' : List Nat} (hsettle : s.settle = some t)
    (h : t.Stands ts indents n true ('-' :: ' ' :: v))
    (hopens : Opens .listStart n indents opening indents') :
    ∃ s', Steps s s' ∧
      s'.Stands (.entry :: (opening ++ ts)) indents' (n + 1) true (' ' :: v) := by
  obtain ⟨u, hu⟩ : ∃ u : Scan, u = { t with
      indents := indents', keyAllowed := true, frame := { t.frame with
        since := opening ++ t.frame.since } } := ⟨_, rfl⟩
  have hnext : t.next '-' (' ' :: v) = some (u.push .entry (' ' :: v)) := by
    have hroll := roll_eq h.outer h.indents hopens
    have hmarker : isMarker ('-' :: ' ' :: v) = false := by simp [isMarker]
    rw [next, if_neg (by simp), if_neg (by simp [hmarker])]
    have hspaced : isSpaced (' ' :: v) = true := rfl
    simp only [hspaced, ↓reduceIte, entry, h.inFlow, h.keyAllowed, h.column, hroll, forget,
      Frame.forget, h.candidate, hu]
    rfl
  have hpush : u.push .entry (' ' :: v) = _ := push_eq ['-'] (by rw [hu]; exact h.rest) .entry
  have hstep : Step s (u.push .entry (' ' :: v)) := .of_settle hsettle h.rest hnext (by rw [hpush])
  obtain ⟨-, hadvance⟩ := t.position.advance_of_forall
    (List.forall_mem_singleton.mpr (show isBreak '-' = false by rfl))
  refine ⟨_, .single hstep, ?_⟩
  rw [hpush]
  subst hu
  refine ⟨rfl, hadvance.trans (congrArg (· + 1) h.column), h.candidate, ?_, h.outer, rfl, rfl⟩
  simp only [← h.tokens, Frame.tokens, Frame.emit, List.cons_append, List.append_assoc]

end Mark

end Scan

end SpecLineage.Yaml
