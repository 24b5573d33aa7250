import SpecLineage.Proofs.Json.Node
import SpecLineage.Proofs.Json.Reading

/-!
# 構文木の読み

形に沿った読みは、字句の頭にある構文木だけを読み、その答えは後に続く字句によらない。記録の値は、項目の名札ごとに、その名札を
持つ項目だけから決まる。知らない名札の項目は、値がどの構文木でも読み飛ばされる。
-/

namespace SpecLineage.Json

/-! ## 構文木の字句 -/

namespace Node

/-- 二つ目からの値を読んだ字句。 -/
def itemTokens (ns : List Node) : List Token := (itemLexemes ns).map Lexeme.token

/-- 二つ目からの項目を読んだ字句。 -/
def memberTokens (ms : List (Quotation × Node)) : List Token :=
  (memberLexemes ms).map Lexeme.token

/-- 開いた括弧の後に並ぶ値を読んだ字句。 -/
def bodyTokens (ns : List Node) : List Token := (bodyLexemes ns).map Lexeme.token

/-- 開いた括弧の後に並ぶ項目を読んだ字句。 -/
def entryTokens (ms : List (Quotation × Node)) : List Token := (entryLexemes ms).map Lexeme.token

theorem tokens_list (ns : List Node) : (list ns).tokens = .openList :: bodyTokens ns := by
  rw [tokens, lexemes_list, List.map_cons, bodyTokens, Lexeme.token]

theorem tokens_record (ms : List (Quotation × Node)) :
    (record ms).tokens = .openRecord :: entryTokens ms := by
  rw [tokens, lexemes_record, List.map_cons, entryTokens, Lexeme.token]

theorem bodyTokens_cons (n : Node) (ns : List Node) :
    bodyTokens (n :: ns) = n.tokens ++ itemTokens ns := List.map_append

theorem entryTokens_cons (key : Quotation) (n : Node) (ms : List (Quotation × Node)) :
    entryTokens ((key, n) :: ms) =
      .text key.string? :: .colon :: (n.tokens ++ memberTokens ms) := by
  rw [entryTokens, entryLexemes, List.map_cons, List.map_cons, List.map_append]
  rfl

theorem itemTokens_cons (n : Node) (ns : List Node) :
    itemTokens (n :: ns) = .comma :: (n.tokens ++ itemTokens ns) := by
  rw [itemTokens, itemLexemes, List.map_cons, List.map_append]
  rfl

theorem memberTokens_cons (m : Quotation × Node) (ms : List (Quotation × Node)) :
    memberTokens (m :: ms) = .comma :: entryTokens (m :: ms) := by
  rw [memberTokens, memberLexemes, List.map_cons]
  rfl

/-- 構文木の字句は空でなく、並びの終わりでは始まらない。`null` で始まるのは `null` だけである。 -/
theorem exists_tokens_eq_cons (n : Node) :
    ∃ t ts, n.tokens = t :: ts ∧ t ≠ .closeList ∧ (n ≠ .null → t ≠ .null) := by
  cases n with
  | list ns => exact ⟨_, _, tokens_list ns, Token.noConfusion, fun _ => Token.noConfusion⟩
  | record ms => exact ⟨_, _, tokens_record ms, Token.noConfusion, fun _ => Token.noConfusion⟩
  | null => exact ⟨_, _, rfl, Token.noConfusion, fun h => absurd rfl h⟩
  | _ => exact ⟨_, _, rfl, Token.noConfusion, fun _ => Token.noConfusion⟩

end Node

/-! ## 読み飛ばし -/

section Skip

variable {opened : List Bracket}

/-- 並びの終わりでなければ、並びの最初の値は、ほかの値と同じに読み飛ばされる。 -/
theorem skip_firstItem_cons {t : Token} (h : t ≠ .closeList) (ts : List Token) :
    skip .firstItem opened (t :: ts) = skip .value opened (t :: ts) := by
  have hadvance : advance .firstItem opened t = advance .value opened t := by
    cases opened <;> cases t <;> first | rfl | exact absurd rfl h
  rw [skip, skip, hadvance]
  all_goals exact fun hexpected => Expected.noConfusion hexpected

theorem skip_firstItem (n : Node) (rest : List Token) :
    skip .firstItem opened (n.tokens ++ rest) = skip .value opened (n.tokens ++ rest) := by
  obtain ⟨t, ts, ht, hclose, -⟩ := n.exists_tokens_eq_cons
  rw [ht, List.cons_append, skip_firstItem_cons hclose]

mutual
/-- 値は、どの構文木でも、その終わりまで読み飛ばされる。 -/
theorem skip_tokens : ∀ (n : Node) (opened : List Bracket) (rest : List Token),
    skip .value opened (n.tokens ++ rest) = skip .separator opened rest
  | .null, _, _ | .flag _, _, _ | .number _, _, _ | .text _, _, _ => rfl
  | .list [], _, _ => rfl
  | .list (n :: ns), opened, rest => by
      rw [Node.tokens_list, Node.bodyTokens_cons, List.cons_append, List.append_assoc]
      change skip .firstItem (.list :: opened) _ = _
      rw [skip_firstItem, skip_tokens, skip_itemTokens]
  | .record [], _, _ => rfl
  | .record ((key, n) :: ms), opened, rest => by
      rw [Node.tokens_record, Node.entryTokens_cons, List.cons_append, List.cons_append,
        List.cons_append, List.append_assoc]
      change skip .value (.record :: opened) _ = _
      rw [skip_tokens, skip_memberTokens]

theorem skip_itemTokens : ∀ (ns : List Node) (opened : List Bracket) (rest : List Token),
    skip .separator (.list :: opened) (Node.itemTokens ns ++ rest) = skip .separator opened rest
  | [], _, _ => rfl
  | n :: ns, opened, rest => by
      rw [Node.itemTokens_cons, List.cons_append, List.append_assoc]
      change skip .value (.list :: opened) _ = _
      rw [skip_tokens, skip_itemTokens]

theorem skip_memberTokens : ∀ (ms : List (Quotation × Node)) (opened : List Bracket)
    (rest : List Token),
    skip .separator (.record :: opened) (Node.memberTokens ms ++ rest) = skip .separator opened rest
  | [], _, _ => rfl
  | (key, n) :: ms, opened, rest => by
      rw [Node.memberTokens_cons, Node.entryTokens_cons, List.cons_append, List.cons_append,
        List.cons_append, List.append_assoc]
      change skip .value (.record :: opened) _ = _
      rw [skip_tokens, skip_memberTokens]
end

end Skip

/-! ## 読みの答え -/

section Reader

variable {α : Type} {read : Reader α} {n : Node} {o : Option α}

/-- 字句の頭にある構文木 `n` を、後に何が続いても `o` と読む。読めなければ `o` は値を持たない。 -/
def Means (read : Reader α) (n : Node) (o : Option α) : Prop :=
  ∀ rest, (read (n.tokens ++ rest)).toOption = o.map (·, rest)

/-- 構文木を読んだ答え。 -/
def meaning (read : Reader α) (n : Node) : Option α := (read n.tokens).toOption.map Prod.fst

/-- 字句の頭にある構文木だけを読み、答えは後に続く字句によらない。 -/
def Local (read : Reader α) : Prop := ∀ n, Means read n (meaning read n)

theorem Means.meaning_eq (h : Means read n o) : meaning read n = o := by
  have hnil := h []
  rw [List.append_nil] at hnil
  rw [meaning, hnil]
  cases o <;> rfl

theorem Local.of (h : ∀ n, ∃ o, Means read n o) : Local read := fun n => by
  obtain ⟨o, ho⟩ := h n
  rw [ho.meaning_eq]
  exact ho

theorem ok_or_error {x : Except Fault (α × List Token)} {rest : List Token}
    (h : x.toOption = o.map (·, rest)) :
    (∃ a, o = some a ∧ x = .ok (a, rest)) ∨ o = none ∧ ∃ fault, x = .error fault := by
  cases x with
  | error fault =>
      cases o with
      | none => exact .inr ⟨rfl, fault, rfl⟩
      | some a => cases h
  | ok p =>
      cases o with
      | none => cases h
      | some a => cases h; exact .inl ⟨a, rfl, rfl⟩

theorem toOption_bind_of {β : Type} {x : Except Fault (α × List Token)} {rest : List Token}
    (h : x.toOption = o.map (·, rest)) (f : α × List Token → Except Fault β) :
    (x.bind f).toOption = o.bind fun a => (f (a, rest)).toOption := by
  rcases ok_or_error h with ⟨a, rfl, rfl⟩ | ⟨rfl, fault, rfl⟩ <;> rfl

theorem toOption_map_of {β : Type} {x : Except Fault (α × List Token)} {rest : List Token}
    (h : x.toOption = o.map (·, rest)) (f : α × List Token → β) :
    (x.map f).toOption = o.map fun a => f (a, rest) := by
  rcases ok_or_error h with ⟨a, rfl, rfl⟩ | ⟨rfl, fault, rfl⟩ <;> rfl

end Reader

/-! ## 括弧を持たない値 -/

theorem local_text : Local text := .of fun n => by
  cases n with
  | text q =>
      refine ⟨q.string?.map .text, fun rest => ?_⟩
      change (text (.text q.string? :: rest)).toOption = _
      cases q.string? <;> rfl
  | list ns => exact ⟨none, fun rest => by rw [Node.tokens_list]; rfl⟩
  | record ms => exact ⟨none, fun rest => by rw [Node.tokens_record]; rfl⟩
  | _ => exact ⟨none, fun rest => rfl⟩

theorem local_flag : Local flag := .of fun n => by
  cases n with
  | flag b => exact ⟨some (.flag b), fun rest => rfl⟩
  | list ns => exact ⟨none, fun rest => by rw [Node.tokens_list]; rfl⟩
  | record ms => exact ⟨none, fun rest => by rw [Node.tokens_record]; rfl⟩
  | _ => exact ⟨none, fun rest => rfl⟩

theorem local_natural (bound : Nat) : Local (natural bound) := .of fun n => by
  cases n with
  | number f =>
      cases hf : f.numeral with
      | natural k =>
          refine ⟨if k < bound then some (.natural k) else none, fun rest => ?_⟩
          change (natural bound (.number f.numeral :: rest)).toOption = _
          rw [hf, natural]
          split <;> rfl
      | _ =>
          refine ⟨none, fun rest => ?_⟩
          change (natural bound (.number f.numeral :: rest)).toOption = _
          rw [hf]
          rfl
  | list ns => exact ⟨none, fun rest => by rw [Node.tokens_list]; rfl⟩
  | record ms => exact ⟨none, fun rest => by rw [Node.tokens_record]; rfl⟩
  | _ => exact ⟨none, fun rest => rfl⟩

/-- 名を名札とする記録は、値が `null` のときだけ名を表す。 -/
theorem choice_openRecord {names : List String} {s : String} (hs : s ∈ names) (ts : List Token) :
    choice names (.openRecord :: .text (some s) :: .colon :: ts) =
      match ts with
      | .null :: ts => (expect .closeRecord ts).map (.text s, ·)
      | ts => .error (unexpected ts) := by
  rw [choice, if_neg (not_not.mpr hs)]
  rfl

theorem exists_choice_openRecord {names : List String} {s : String} (hs : s ∈ names) (n : Node)
    (ms : List (Quotation × Node)) : ∃ o : Option Data, ∀ rest,
      (choice names (.openRecord :: .text (some s) :: .colon ::
        (n.tokens ++ (Node.memberTokens ms ++ rest)))).toOption = o.map (·, rest) := by
  simp only [choice_openRecord hs]
  cases n with
  | null =>
      cases ms with
      | nil => exact ⟨some (.text s), fun rest => rfl⟩
      | cons m ms => exact ⟨none, fun rest => rfl⟩
  | list ns => exact ⟨none, fun rest => by rw [Node.tokens_list]; rfl⟩
  | record ms => exact ⟨none, fun rest => by rw [Node.tokens_record]; rfl⟩
  | _ => exact ⟨none, fun rest => rfl⟩

theorem local_choice (names : List String) : Local (choice names) := .of fun n => by
  cases n with
  | text q =>
      refine ⟨q.string?.bind fun s => if s ∈ names then some (.text s) else none, fun rest => ?_⟩
      change (choice names (.text q.string? :: rest)).toOption = _
      cases q.string? with
      | none => rfl
      | some s =>
          rw [choice, Option.bind_some]
          split <;> rfl
  | record ms =>
      cases ms with
      | nil => exact ⟨none, fun rest => rfl⟩
      | cons m ms =>
          obtain ⟨key, n⟩ := m
          simp only [Means, Node.tokens_record, Node.entryTokens_cons, List.cons_append,
            List.append_assoc]
          cases key.string? with
          | none => exact ⟨none, fun rest => rfl⟩
          | some s =>
              by_cases hs : s ∈ names
              · exact exists_choice_openRecord hs n ms
              · refine ⟨none, fun rest => ?_⟩
                rw [choice, if_pos hs]
                rfl
  | list ns => exact ⟨none, fun rest => by rw [Node.tokens_list]; rfl⟩
  | _ => exact ⟨none, fun rest => rfl⟩

/-! ## 並び -/

section List

variable {item : Reader Data}

theorem items_tokens (h : Local item) (n : Node) (ns : List Node) (rest : List Token) :
    (items item (n.tokens ++ (Node.itemTokens ns ++ rest))).toOption =
      ((n :: ns).mapM (meaning item)).map (·, rest) := by
  induction ns generalizing n with
  | nil =>
      rw [items]
      rcases ok_or_error (h n (Node.itemTokens [] ++ rest)) with ⟨d, hd, hread⟩ | ⟨hd, fault, hread⟩
      · rw [hread, List.mapM_cons, hd]
        rfl
      · rw [hread, List.mapM_cons, hd]
        rfl
  | cons m ns ih =>
      have hrest := ih m
      obtain ⟨t, ts, ht, hclose, -⟩ := m.exists_tokens_eq_cons
      rw [items]
      rcases ok_or_error (h n (Node.itemTokens (m :: ns) ++ rest)) with
        ⟨d, hd, hread⟩ | ⟨hd, fault, hread⟩
      · rw [hread, Node.itemTokens_cons, List.mapM_cons, hd]
        rw [ht] at hrest ⊢
        simp only [List.cons_append, List.append_assoc] at hrest ⊢
        have hlt : (t :: (ts ++ (Node.itemTokens ns ++ rest))).length <
            (n.tokens ++ .comma :: t :: (ts ++ (Node.itemTokens ns ++ rest))).length := by
          rw [List.length_append, List.length_cons (a := Token.comma)]
          omega
        simp only [List.cons.injEq, hclose, false_and, imp_self, implies_true, hlt, ↓reduceIte]
        rw [Option.bind_eq_bind, Option.bind_some, Option.bind_eq_bind]
        rcases ok_or_error hrest with ⟨ds, hds, hitems⟩ | ⟨hds, fault, hitems⟩
        · rw [hitems, hds]
          rfl
        · rw [hitems, hds]
          rfl
      · rw [hread, List.mapM_cons, hd]
        rfl

theorem means_list (h : Local item) (ns : List Node) :
    Means (list item) (.list ns) ((ns.mapM (meaning item)).map .list) := by
  intro rest
  cases ns with
  | nil => rfl
  | cons n ns =>
      have hitems := items_tokens h n ns rest
      obtain ⟨t, ts, ht, hclose, -⟩ := n.exists_tokens_eq_cons
      rw [Node.tokens_list, Node.bodyTokens_cons, List.cons_append, List.append_assoc]
      rw [ht, List.cons_append] at hitems ⊢
      rw [list]
      · rw [toOption_map_of hitems, Option.map_map]
        rfl
      · exact fun ts' hts => hclose (List.cons.inj hts).1
      · exact List.cons_ne_nil _ _

theorem local_list (h : Local item) : Local (list item) := .of fun n => by
  cases n with
  | list ns => exact ⟨_, means_list h ns⟩
  | record ms => exact ⟨none, fun rest => by rw [Node.tokens_record]; rfl⟩
  | _ => exact ⟨none, fun rest => rfl⟩

end List

/-! ## 項目の値 -/

theorem means_slot {m : Member} (h : Local m.read) {n : Node} (hn : n ≠ .null) :
    Means m.slot n ((meaning m.read n).map some) := by
  intro rest
  obtain ⟨t, ts, ht, -, hnull⟩ := n.exists_tokens_eq_cons
  have hread := h n rest
  rw [ht, List.cons_append] at hread ⊢
  rw [Member.slot]
  · rw [toOption_map_of hread, Option.map_map]
    rfl
  · exact fun ts' hts => hnull hn (List.cons.inj hts).1

theorem local_slot {m : Member} (h : Local m.read) : Local m.slot := .of fun n => by
  by_cases hn : n = .null
  · subst hn
    by_cases hpresence : m.presence = .optional
    · refine ⟨some none, fun rest => ?_⟩
      change (m.slot (.null :: rest)).toOption = _
      rw [Member.slot, if_pos hpresence]
      rfl
    · refine ⟨(meaning m.read .null).map some, fun rest => ?_⟩
      change (m.slot (.null :: rest)).toOption = _
      rw [Member.slot, if_neg hpresence, Option.map_map]
      exact toOption_map_of (h .null rest) _
  · exact ⟨_, means_slot h hn⟩

/-! ## 値だけを並べた記録 -/

/-- 項目の値だけを並べた記録の値。途中で終われば残りの項目は欠けたものとする。 -/
def rowMeaning : List Member → List Node → Option (List (Option Data))
  | [], [] => some []
  | [], _ :: _ => none
  | m :: ms, [] => ((m :: ms).mapM Member.absent).toOption
  | m :: ms, n :: ns => do return (← meaning m.slot n) :: (← rowMeaning ms ns)

section Row

variable {ms : List Member}

theorem row_closeList (first : Bool) (ms : List Member) (rest : List Token) :
    (row first ms (.closeList :: rest)).toOption = (rowMeaning ms []).map (·, rest) := by
  cases ms with
  | nil => rfl
  | cons m ms =>
      rw [row, rowMeaning]
      cases (m :: ms).mapM Member.absent <;> rfl

/-- 項目の値を一つ読み、残りの項目に進む。 -/
theorem row_step {m : Member} (h : Local m.read) {n : Node} {ns : List Node} {rest : List Token}
    (ih : (row false ms (Node.itemTokens ns ++ rest)).toOption = (rowMeaning ms ns).map (·, rest)) :
    ((m.slot (n.tokens ++ (Node.itemTokens ns ++ rest))).bind fun r =>
      (row false ms r.2).bind fun r' => .ok (r.1 :: r'.1, r'.2)).toOption =
        (rowMeaning (m :: ms) (n :: ns)).map (·, rest) := by
  rw [rowMeaning, toOption_bind_of (local_slot h n (Node.itemTokens ns ++ rest))]
  cases meaning m.slot n with
  | none => rfl
  | some v =>
      rw [Option.bind_some, toOption_bind_of ih]
      cases rowMeaning ms ns <;> rfl

theorem row_itemTokens (h : ∀ m ∈ ms, Local m.read) (ns : List Node) (rest : List Token) :
    (row false ms (Node.itemTokens ns ++ rest)).toOption = (rowMeaning ms ns).map (·, rest) := by
  induction ms generalizing ns with
  | nil =>
      cases ns with
      | nil => rfl
      | cons n ns => rw [Node.itemTokens_cons]; rfl
  | cons m ms ih =>
      obtain ⟨hm, hms⟩ := List.forall_mem_cons.mp h
      cases ns with
      | nil => exact row_closeList false (m :: ms) rest
      | cons n ns =>
          obtain ⟨t, ts, ht, hclose, -⟩ := n.exists_tokens_eq_cons
          have hseparated : row.separated (.comma :: t :: (ts ++ (Node.itemTokens ns ++ rest))) =
              .ok (t :: (ts ++ (Node.itemTokens ns ++ rest))) := by
            rw [row.separated]
            · exact List.cons_ne_nil _ _
            · exact fun ts' hts => hclose (List.cons.inj hts).1
          rw [← row_step hm (ih hms ns), Node.itemTokens_cons, List.cons_append, List.append_assoc,
            ht, List.cons_append, row]
          · simp only [Bool.false_eq_true, ↓reduceIte, hseparated]
            rfl
          · exact List.cons_ne_nil _ _
          · exact fun ts' hts => Token.noConfusion (List.cons.inj hts).1

theorem row_bodyTokens (h : ∀ m ∈ ms, Local m.read) (ns : List Node) (rest : List Token) :
    (row true ms (Node.bodyTokens ns ++ rest)).toOption = (rowMeaning ms ns).map (·, rest) := by
  cases ns with
  | nil => exact row_closeList true ms rest
  | cons n ns =>
      obtain ⟨t, ts, ht, hclose, -⟩ := n.exists_tokens_eq_cons
      rw [Node.bodyTokens_cons, List.append_assoc]
      cases ms with
      | nil =>
          rw [ht, List.cons_append, row]
          · rfl
          · exact hclose
      | cons m ms =>
          obtain ⟨hm, hms⟩ := List.forall_mem_cons.mp h
          rw [← row_step hm (row_itemTokens hms ns rest), ht, List.cons_append, row]
          · rfl
          · exact List.cons_ne_nil _ _
          · exact fun ts' hts => hclose (List.cons.inj hts).1

end Row

/-! ## 名札を持つ記録 -/

/-- 名札 `key` の値を一つ読んだ後の、読みかけの項目。知らない名札なら変わらない。 -/
def place (key : String) (n : Node) (drafts : List Draft) : Option (List Draft) :=
  match draft? key drafts with
  | none => some drafts
  | some { member, seen := none } => (meaning member.slot n).map (fill key · drafts)
  | some _ => none

/-- 名札と値を順に読んだ後の、読みかけの項目。 -/
def placeAll (drafts : List Draft) (es : List (Quotation × Node)) : Option (List Draft) :=
  es.foldlM (fun drafts e => e.1.string?.bind (place · e.2 drafts)) drafts

/-- 名札を持つ記録の値。 -/
def recordMeaning (ms : List Member) (es : List (Quotation × Node)) : Option Data :=
  (placeAll (fresh ms) es).bind fun drafts => (close drafts).toOption.map .record

section Entries

variable {ms : List Member} {drafts drafts' : List Draft} {key : String} {n : Node}

theorem map_member_fresh (ms : List Member) : (fresh ms).map Draft.member = ms := by
  rw [fresh, List.map_map]
  exact List.map_id ms

theorem map_member_fill (key : String) (v : Option Data) (drafts : List Draft) :
    (fill key v drafts).map Draft.member = drafts.map Draft.member := by
  rw [fill, List.map_map]
  refine List.map_congr_left fun d _ => ?_
  rw [Function.comp_apply]
  split <;> rfl

theorem map_member_place (h : place key n drafts = some drafts') :
    drafts'.map Draft.member = drafts.map Draft.member := by
  rw [place] at h
  split at h
  · cases h
    rfl
  · obtain ⟨v, -, rfl⟩ := Option.map_eq_some_iff.mp h
    exact map_member_fill key v drafts
  · cases h

theorem member_mem_of_draft? {d : Draft} (h : draft? key drafts = some d) :
    d.member ∈ drafts.map Draft.member :=
  List.mem_map_of_mem (List.mem_of_find?_eq_some h)

theorem entry_tokens (h : ∀ m ∈ drafts.map Draft.member, Local m.read) (key : String) (n : Node)
    (rest : List Token) :
    (entry key drafts (.colon :: (n.tokens ++ rest))).toOption =
      (place key n drafts).map (·, rest) := by
  rw [entry, place]
  rcases hdraft : draft? key drafts with _ | ⟨m, _ | v⟩
  · change ((skip .value [] (n.tokens ++ rest)).bind _).toOption = _
    rw [skip_tokens, skip]
    rfl
  · change ((m.slot (n.tokens ++ rest)).bind _).toOption =
      ((meaning m.slot n).map (fill key · drafts)).map (·, rest)
    rw [toOption_bind_of (local_slot (h m (member_mem_of_draft? hdraft)) n rest)]
    cases meaning m.slot n <;> rfl
  · rfl

theorem placeAll_cons (drafts : List Draft) (key : Quotation) (n : Node)
    (es : List (Quotation × Node)) :
    placeAll drafts ((key, n) :: es) =
      (key.string?.bind (place · n drafts)).bind (placeAll · es) := List.foldlM_cons

/-- 名札と値を一つ読み、記録の終わりか次の名札に進む。 -/
theorem entries_step (h : ∀ m ∈ drafts.map Draft.member, Local m.read) (key : Quotation) (n : Node)
    (rest : List Token) :
    (entries drafts (.text key.string? :: .colon :: (n.tokens ++ rest))).toOption =
      (key.string?.bind (place · n drafts)).bind fun drafts =>
        match rest with
        | .closeRecord :: rest => some (drafts, rest)
        | .comma :: rest => (entries drafts rest).toOption
        | _ => none := by
  cases key.string? with
  | none =>
      rw [entries]
      · rfl
      · exact fun _ hts => Option.some_ne_none _ (Token.text.inj hts).symm
      · exact fun _ _ => Token.noConfusion
  | some key =>
      rw [entries, Option.bind_some]
      rcases ok_or_error (entry_tokens h key n rest) with
        ⟨drafts', hplace, hentry⟩ | ⟨hplace, fault, hentry⟩
      · rw [hentry, hplace, Option.bind_some]
        rcases rest with _ | ⟨t, rest⟩
        · rfl
        · cases t with
          | comma =>
              change Except.toOption (if _ then _ else _) = _
              rw [if_pos (by simp only [List.length_cons, List.length_append]; omega)]
          | _ => rfl
      · rw [hentry, hplace]
        rfl

theorem entries_tokens (h : ∀ m ∈ drafts.map Draft.member, Local m.read) (e : Quotation × Node)
    (es : List (Quotation × Node)) (rest : List Token) :
    (entries drafts (Node.entryTokens (e :: es) ++ rest)).toOption =
      (placeAll drafts (e :: es)).map (·, rest) := by
  induction es generalizing drafts e with
  | nil =>
      rw [Node.entryTokens_cons, List.cons_append, List.cons_append, List.append_assoc,
        entries_step h, placeAll_cons]
      cases e.1.string?.bind (place · e.2 drafts) <;> rfl
  | cons e' es ih =>
      rw [Node.entryTokens_cons, List.cons_append, List.cons_append, List.append_assoc,
        entries_step h, placeAll_cons, Node.memberTokens_cons]
      cases hplace : e.1.string?.bind (place · e.2 drafts) with
      | none => rfl
      | some drafts' =>
          obtain ⟨key, -, hkey⟩ := Option.bind_eq_some_iff.mp hplace
          exact ih (map_member_place hkey ▸ h) e'

theorem means_record (h : ∀ m ∈ ms, Local m.read) (es : List (Quotation × Node)) :
    Means (record ms) (.record es) (recordMeaning ms es) := by
  intro rest
  have hfresh : ∀ m ∈ (fresh ms).map Draft.member, Local m.read := by rwa [map_member_fresh]
  have hclose : ∀ drafts : List Draft,
      ((close drafts).bind fun slots => .ok (Data.record slots, rest)).toOption =
        ((close drafts).toOption.map Data.record).map (·, rest) := fun drafts => by
    cases close drafts <;> rfl
  rw [Node.tokens_record, List.cons_append, recordMeaning]
  cases es with
  | nil => exact hclose (fresh ms)
  | cons e es =>
      have hentries := entries_tokens hfresh e es rest
      rw [Node.entryTokens_cons, List.cons_append] at hentries ⊢
      change ((entries (fresh ms) _).bind
        fun r => (close r.1).bind fun slots => .ok (Data.record slots, r.2)).toOption = _
      rw [toOption_bind_of hentries]
      cases placeAll (fresh ms) (e :: es) with
      | none => rfl
      | some drafts => exact hclose drafts

/-- 値だけを並べた記録は、形の順に項目の値を読む。 -/
theorem means_row (h : ∀ m ∈ ms, Local m.read) (ns : List Node) :
    Means (record ms) (.list ns) ((rowMeaning ms ns).map .record) := by
  intro rest
  rw [Node.tokens_list, List.cons_append]
  change ((row true ms (Node.bodyTokens ns ++ rest)).bind _).toOption = _
  rw [toOption_bind_of (row_bodyTokens h ns rest)]
  cases rowMeaning ms ns <;> rfl

theorem local_record (h : ∀ m ∈ ms, Local m.read) : Local (record ms) := .of fun n => by
  cases n with
  | list ns => exact ⟨_, means_row h ns⟩
  | record es => exact ⟨_, means_record h es⟩
  | _ => exact ⟨none, fun rest => rfl⟩

end Entries

/-! ## 形に沿った読み -/

mutual
/-- 形に沿った読みは、字句の頭にある構文木だけを読む。 -/
theorem local_value : ∀ shape : Shape, Local (value shape)
  | .text => by rw [value]; exact local_text
  | .flag => by rw [value]; exact local_flag
  | .natural bound => by rw [value]; exact local_natural bound
  | .choice names => by rw [value]; exact local_choice names
  | .list item => by rw [value]; exact local_list (local_value item)
  | .record ms => by rw [value]; exact local_record (local_members ms)

theorem local_members (ms : Members) : ∀ m ∈ members ms, Local m.read := by
  cases ms with
  | nil =>
      rw [members]
      exact List.forall_mem_nil _
  | cons key presence shape ms =>
      rw [members]
      exact List.forall_mem_cons.mpr ⟨local_value shape, local_members ms⟩
end

/-- 文字列の読みは、書いてある構文木の読みである。 -/
theorem Node.Spells.toOption_read {n : Node} {s : String} (h : n.Spells s) (shape : Shape) :
    (read shape s).toOption = meaning (value shape) n := by
  have hvalue := local_value shape n []
  rw [List.append_nil] at hvalue
  rw [read, h.tokens_eq]
  refine (toOption_bind_of hvalue _).trans ?_
  cases meaning (value shape) n <;> rfl

end SpecLineage.Json
