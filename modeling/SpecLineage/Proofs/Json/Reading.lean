import SpecLineage.Proofs.Data.Fitting
import SpecLineage.Proofs.Json.Lexeme
import SpecLineage.Proofs.Sequence
import SpecLineage.Json.Read

/-!
# 書いた JSON の読み

形に沿う値に名札をつけた木は、その字句から元の値に読める。記録の項目は左から一つずつ読まれるので、すでに読んだ項目、
いま読む項目、まだ現れない項目に分けて追う。
-/

namespace SpecLineage.Json

/-- 字句の頭にある木 `t` を、後に何が続いても値 `d` に読む。 -/
def Reads (read : Reader Data) (t : Tree) (d : Data) : Prop :=
  ∀ rest, read (lexemes t ++ rest) = .ok (d, rest)

/-- 木の字句は空でなく、`null` でも並びの終わりでも始まらない。 -/
theorem exists_lexemes_eq_cons (t : Tree) :
    ∃ token ts, lexemes t = token :: ts ∧ token ≠ .null ∧ token ≠ .closeList := by
  unfold lexemes
  split <;> exact ⟨_, _, rfl, Token.noConfusion, Token.noConfusion⟩

/-! ## 並び -/

section List

variable {item : Reader Data} {tree : Data → Tree}

theorem items_lexemes (d : Data) (ds : List Data) (h : ∀ e ∈ d :: ds, Reads item (tree e) e)
    (rest : List Token) :
    items item (lexemes (tree d) ++ (itemLexemes (ds.map tree) ++ rest)) = .ok (d :: ds, rest) := by
  induction ds generalizing d with
  | nil =>
      rw [items, h d List.mem_cons_self, List.map_nil, itemLexemes]
      rfl
  | cons e ds ih =>
      have hrest := ih e fun e' he' => h e' (List.mem_cons_of_mem d he')
      obtain ⟨token, ts, htoken, -, hclose⟩ := exists_lexemes_eq_cons (tree e)
      rw [items, h d List.mem_cons_self, List.map_cons, itemLexemes]
      rw [htoken] at hrest ⊢
      simp only [List.cons_append, List.append_assoc] at hrest ⊢
      have hlt : (token :: (ts ++ (itemLexemes (ds.map tree) ++ rest))).length <
          (lexemes (tree d) ++
            .comma :: token :: (ts ++ (itemLexemes (ds.map tree) ++ rest))).length := by
        rw [List.length_append, List.length_cons (a := Token.comma)]
        omega
      simp only [List.cons.injEq, hclose, false_and, imp_self, implies_true, hlt, hrest,
        ↓reduceIte]

theorem reads_list (ds : List Data) (h : ∀ d ∈ ds, Reads item (tree d) d) :
    Reads (list item) (.list (ds.map tree)) (.list ds) := by
  intro rest
  cases ds with
  | nil => rfl
  | cons d ds =>
      obtain ⟨token, ts, htoken, -, hclose⟩ := exists_lexemes_eq_cons (tree d)
      have hitems := items_lexemes d ds h rest
      rw [List.map_cons, lexemes, List.cons_append, List.append_assoc]
      rw [htoken] at hitems ⊢
      rw [List.cons_append] at hitems ⊢
      rw [list, hitems]
      · rfl
      · exact fun ts' hts => hclose (List.cons.inj hts).1
      · exact List.cons_ne_nil _ _

end List

/-! ## 記録 -/

/-- まだ現れない項目。 -/
def fresh (ms : List Member) : List Draft := ms.map fun m => { member := m }

/-- 読み終えた項目。欠けた項目は現れないままである。 -/
def filled (ms : List Member) (slots : List (Option Data)) : List Draft :=
  List.zipWith (fun m slot => { member := m, seen := slot.map some }) ms slots

/-- 項目の名。 -/
def draftKeys (drafts : List Draft) : List String := drafts.map fun d => d.member.key

/-- 項目 `ms` の値 `slots` を、名札をつけた木 `trees` に書いてある。 -/
inductive Written : List Member → List (Option Data) → List (String × Tree) → Prop
  | nil : Written [] [] []
  | absent {m : Member} {ms : List Member} {slots : List (Option Data)}
    {trees : List (String × Tree)} :
    m.presence ≠ .required → Written ms slots trees → Written (m :: ms) (none :: slots) trees
  | present {m : Member} {ms : List Member} {d : Data} {slots : List (Option Data)} {t : Tree}
    {trees : List (String × Tree)} :
    Reads m.read t d → Written ms slots trees →
      Written (m :: ms) (some d :: slots) ((m.key, t) :: trees)

section Record

variable {m : Member} {ms : List Member} {t : Tree} {d : Data} {slots : List (Option Data)}
  {trees : List (String × Tree)} {done todo : List Draft}

theorem slot_lexemes (h : Reads m.read t d) (rest : List Token) :
    m.slot (lexemes t ++ rest) = .ok (some d, rest) := by
  obtain ⟨token, ts, htoken, hnull, -⟩ := exists_lexemes_eq_cons t
  have hread := h rest
  rw [htoken, List.cons_append] at hread ⊢
  rw [Member.slot, hread]
  · rfl
  · exact fun ts' hts => hnull (List.cons.inj hts).1

theorem draft?_fresh (hdone : m.key ∉ draftKeys done) :
    draft? m.key (done ++ { member := m } :: todo) = some { member := m } :=
  List.find?_append_cons_of_notMem (a := { member := m }) (f := fun d : Draft => d.member.key) hdone

theorem entry_lexemes (h : Reads m.read t d) (hdone : m.key ∉ draftKeys done)
    (htodo : m.key ∉ draftKeys todo) (rest : List Token) :
    entry m.key (done ++ { member := m } :: todo) (.colon :: (lexemes t ++ rest)) =
      .ok (done ++ { member := m, seen := some (some d) } :: todo, rest) := by
  have hfill : fill m.key (some d) (done ++ { member := m } :: todo) =
      done ++ { member := m, seen := some (some d) } :: todo :=
    List.map_ite_key_append_cons (a := { member := m }) (f := fun d : Draft => d.member.key)
      hdone htodo fun x => { x with seen := some (some d) }
  simp only [entry, draft?_fresh hdone, expect, ↓reduceIte]
  change ((m.slot (lexemes t ++ rest)).bind fun r =>
    .ok (fill m.key r.1 (done ++ { member := m } :: todo), r.2)) = _
  rw [slot_lexemes h]
  exact congrArg (fun drafts => Except.ok (drafts, rest)) hfill

theorem Written.filled_eq_fresh (h : Written ms slots []) : filled ms slots = fresh ms := by
  generalize htrees : ([] : List (String × Tree)) = trees at h
  induction h with
  | nil => rfl
  | absent _ _ ih => exact congrArg _ (ih htrees)
  | present => cases htrees

theorem Written.close_filled (h : Written ms slots trees) :
    close (filled ms slots) = .ok slots := by
  induction h with
  | nil => rfl
  | absent hpresence _ ih =>
      rw [close] at ih
      rw [close, filled, List.zipWith_cons_cons, List.mapM_cons, ← filled, ih]
      simp only [Option.map_none, Member.absent, hpresence, ↓reduceIte]
      rfl
  | present _ _ ih =>
      rw [close] at ih
      rw [close, filled, List.zipWith_cons_cons, List.mapM_cons, ← filled, ih]
      rfl

/-- 名札から始めて、残りの項目を閉じる括弧まで読む。すでに読んだ項目 `done` は変わらない。 -/
theorem Written.entries_eq (h : Written ms slots trees)
    (hkeys : (draftKeys (done ++ fresh ms)).Nodup) {key : String}
    {trees' : List (String × Tree)} (htrees : trees = (key, t) :: trees') (rest : List Token) :
    entries (done ++ fresh ms)
        (.text (some key) :: .colon :: (lexemes t ++ (memberLexemes trees' ++ rest))) =
      .ok (done ++ filled ms slots, rest) := by
  induction h generalizing done key t trees' with
  | nil => cases htrees
  | @absent m ms slots trees _ _ ih =>
      -- 書かれていない項目は、現れないまま読み終えた側に移る。
      rw [fresh, List.map_cons, ← fresh, List.append_cons] at hkeys ⊢
      rw [ih hkeys htrees, List.append_assoc]
      rfl
  | @present m ms d slots t trees hread hwritten ih =>
      obtain ⟨⟨rfl, rfl⟩, rfl⟩ := And.imp_left Prod.mk.inj (List.cons.inj htrees)
      rw [fresh, List.map_cons, ← fresh] at hkeys ⊢
      obtain ⟨hdone, htodo⟩ := List.notMem_map_of_nodup_append_cons hkeys
      rw [entries, entry_lexemes hread hdone htodo]
      cases trees with
      | nil =>
          rw [filled, List.zipWith_cons_cons, ← filled, hwritten.filled_eq_fresh]
          rfl
      | cons second trees =>
          have hkeys' : (draftKeys (done ++ [{ member := m, seen := some (some d) }] ++
              fresh ms)).Nodup := by
            simpa only [draftKeys, List.map_append, List.map_cons, List.map_nil, List.append_assoc,
              List.singleton_append] using hkeys
          have hrest := ih hkeys' rfl
          rw [List.append_assoc, List.singleton_append] at hrest
          simp only [memberLexemes, List.cons_append, List.append_assoc]
          rw [if_pos (by simp only [List.length_cons, List.length_append]; omega), hrest,
            List.append_assoc]
          rfl

theorem Written.reads_record (h : Written ms slots trees) (hkeys : (ms.map Member.key).Nodup) :
    Reads (record ms) (.record trees) (.record slots) := by
  intro rest
  cases trees with
  | nil =>
      change (close (fresh ms)).bind (fun slots => .ok (Data.record slots, rest)) = _
      rw [← h.filled_eq_fresh, h.close_filled]
      rfl
  | cons first trees =>
      have hfresh : (draftKeys ([] ++ fresh ms)).Nodup := by
        rwa [List.nil_append, draftKeys, fresh, List.map_map]
      have hentries := h.entries_eq hfresh rfl rest
      rw [List.nil_append, List.nil_append] at hentries
      rw [lexemes, List.cons_append, List.cons_append, List.cons_append, List.append_assoc]
      change (entries (fresh ms) _).bind
        (fun r => (close r.1).bind fun slots => .ok (Data.record slots, r.2)) = _
      rw [hentries]
      change (close (filled ms slots)).bind (fun slots => .ok (Data.record slots, rest)) = _
      rw [h.close_filled]
      rfl

end Record

/-! ## 形に沿った値 -/

theorem map_key_members : ∀ ms : Members, (members ms).map Member.key = ms.keys
  | .nil => by rw [members, Members.keys, List.map_nil]
  | .cons key _ _ ms => by rw [members, Members.keys, List.map_cons, map_key_members ms]

mutual
theorem reads_value : ∀ (shape : Shape) {d : Data}, Fits shape d →
    Reads (value shape) (shape.tree d) d
  | .text, _, .text s => fun rest => rfl
  | .flag, _, .flag b => fun rest => rfl
  | .natural bound, _, .natural hn hbound => fun rest => by
      rw [value, Shape.tree, lexemes, numeral_toDigits (Nat.lt_of_lt_of_le hn hbound),
        List.singleton_append, natural, if_pos hn]
  | .choice names, _, .choice hs => fun rest => by
      rw [value, Shape.tree, lexemes, List.singleton_append, choice, if_pos hs]
  | .list item, _, .list hds => by
      rw [value, Shape.tree]
      exact reads_list _ fun d hd => reads_value item (hds d hd)
  | .record ms, _, .record hkeys hslots => by
      rw [value, Shape.tree]
      exact (written_members ms hslots).reads_record (by rwa [map_key_members])

/-- 形に沿う項目の値は、名札をつけた項目に書いてある。 -/
theorem written_members : ∀ (ms : Members) {slots : List (Option Data)}, FitsAll ms slots →
    Written (members ms) slots (ms.trees slots)
  | .nil, _, .nil => by
      rw [members, Members.trees]
      exact .nil
  | .cons key presence shape ms, _, .absent hpresence hslots => by
      rw [members, Members.trees]
      exact .absent hpresence (written_members ms hslots)
  | .cons key presence shape ms, _, .present hd hslots => by
      rw [members, Members.trees]
      exact .present (reads_value shape hd) (written_members ms hslots)
end

/-- 形に沿う値は、どちらの書きかたでも、書いた文字列から読み戻せる。後に空白が続いてもよい。 -/
theorem read_write_append (style : Style) {shape : Shape} {d : Data} (h : Fits shape d)
    {rest : List Char} (hrest : Delimited rest) (hblank : tokens rest = []) :
    read shape (String.ofList (write style (shape.tree d) ++ rest)) = .ok d := by
  have hvalue := reads_value shape h []
  rw [read, String.toList_ofList, tokens_write style _ hrest, hblank, hvalue]
  rfl

theorem read_write (style : Style) {shape : Shape} {d : Data} (h : Fits shape d) :
    read shape (String.ofList (write style (shape.tree d))) = .ok d := by
  have hnil : Delimited [] := fun c hc => nomatch hc
  have hread := read_write_append style h hnil (by rw [tokens])
  rwa [List.append_nil] at hread

end SpecLineage.Json
