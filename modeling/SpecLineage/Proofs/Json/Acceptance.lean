import SpecLineage.Proofs.Json.Meaning
import SpecLineage.Proofs.Json.Scanning

/-!
# 読めた文字列は JSON である

形に沿った読みは、値を読むたびに、読み飛ばすときと同じ所まで進む。読み飛ばしは開いた括弧を積み、括弧ごとに残りの値や項目と
閉じる括弧を求めるので、終わりまで読み飛ばせた字句は一つの構文木を書いたものである。したがって、値に読める文字列はどれも構文木の
書きかたである。
-/

namespace SpecLineage.Json

/-- 値を読めば、値を読み飛ばすのと同じ所まで進む。外でどの括弧が開いていてもよい。 -/
def Skims {α : Type} (read : Reader α) : Prop :=
  ∀ {ts : List Token} {a : α} {rest : List Token}, read ts = .ok (a, rest) →
    ∀ opened, skip .value opened ts = skip .separator opened rest

theorem exists_of_bind_eq_ok {α β : Type} {x : Except Fault α} {f : α → Except Fault β} {b : β}
    (h : x.bind f = .ok b) : ∃ a, x = .ok a ∧ f a = .ok b := by
  cases x with
  | error fault => cases h
  | ok a => exact ⟨a, rfl, h⟩

theorem exists_of_map_eq_ok {α β : Type} {x : Except Fault α} {f : α → β} {b : β}
    (h : x.map f = .ok b) : ∃ a, x = .ok a ∧ f a = b := by
  cases x with
  | error fault => cases h
  | ok a => exact ⟨a, rfl, Except.ok.inj h⟩

/-! ## 括弧を持たない値 -/

theorem skims_text : Skims text := by
  intro ts d rest h opened
  unfold text at h
  split at h
  · cases h
    rfl
  · cases h

theorem skims_flag : Skims flag := by
  intro ts d rest h opened
  unfold flag at h
  split at h
  · cases h
    rfl
  · cases h

theorem skims_natural (bound : Nat) : Skims (natural bound) := by
  intro ts d rest h opened
  unfold natural at h
  split at h
  · split at h
    · cases h
      rfl
    · cases h
  · cases h

theorem eq_of_expect_eq_ok {t : Token} {ts rest : List Token} (h : expect t ts = .ok rest) :
    ts = t :: rest := by
  cases ts with
  | nil => cases h
  | cons t' ts =>
      rw [expect] at h
      split at h
      · rename_i ht
        cases h
        rw [ht]
      · cases h

theorem skims_choice (names : List String) : Skims (choice names) := by
  intro ts d rest h opened
  unfold choice at h
  split at h
  case h_3 =>
    split at h
    · cases h
      rfl
    · cases h
  case h_5 s ts =>
    dsimp only at h
    split at h
    · cases h
    obtain ⟨ts', hcolon, h⟩ := exists_of_bind_eq_ok h
    split at h
    · obtain ⟨rest', hclose, h⟩ := exists_of_bind_eq_ok h
      cases h
      rw [eq_of_expect_eq_ok hcolon, eq_of_expect_eq_ok hclose]
      rfl
    · cases h
  all_goals cases h

/-! ## 並び -/

section List

variable {item : Reader Data} {opened : List Bracket}

theorem skip_of_items (h : Skims item) {ts rest : List Token} {ds : List Data}
    (hitems : items item ts = .ok (ds, rest)) :
    skip .value (.list :: opened) ts = skip .separator opened rest := by
  fun_induction items item ts generalizing ds with
  | case2 ts d rest' hitem =>
      cases hitems
      exact h hitem _
  | case7 ts d rest' _ _ hitem hlt ds' rest'' hrest ih =>
      cases hitems
      exact (h hitem _).trans (ih hrest)
  | _ => cases hitems

theorem skims_list (h : Skims item) : Skims (list item) := by
  intro ts d rest hlist opened
  unfold list at hlist
  split at hlist
  · cases hlist
    rfl
  · cases hlist
  · rename_i ts hclose hnil
    obtain ⟨⟨ds, rest'⟩, hitems, heq⟩ := exists_of_map_eq_ok hlist
    cases heq
    obtain ⟨t, ts, rfl⟩ := List.exists_cons_of_ne_nil hnil
    rw [← skip_of_items h hitems, ← skip_firstItem_cons fun ht => hclose ts (ht ▸ rfl)]
    rfl
  · cases hlist

end List

/-! ## 記録 -/

section Record

variable {opened : List Bracket}

theorem skims_slot {m : Member} (h : Skims m.read) : Skims m.slot := by
  intro ts v rest hslot opened
  unfold Member.slot at hslot
  split at hslot
  · split at hslot
    · cases hslot
      rfl
    · obtain ⟨⟨d, rest'⟩, hread, heq⟩ := exists_of_map_eq_ok hslot
      cases heq
      exact h hread opened
  · obtain ⟨⟨d, rest'⟩, hread, heq⟩ := exists_of_map_eq_ok hslot
    cases heq
    exact h hread opened

theorem eq_of_separated_eq_ok {ts rest : List Token} (h : row.separated ts = .ok rest) :
    ts = .comma :: rest := by
  unfold row.separated at h
  split at h <;> cases h
  rfl

theorem skip_of_row_closeList {ms : List Member} {first : Bool} {ts rest : List Token}
    {slots : List (Option Data)} (h : row first ms (.closeList :: ts) = .ok (slots, rest)) :
    skip (if first then .firstItem else .separator) (.list :: opened) (.closeList :: ts) =
      skip .separator opened rest := by
  have hrow := row_closeList first ms ts
  rw [h] at hrow
  obtain ⟨slots', -, heq⟩ := Option.map_eq_some_iff.mp hrow.symm
  cases heq
  cases first <;> rfl

theorem skip_of_slot_row {m : Member} {ms : List Member} {rest : List Token} (hm : Skims m.read)
    (ih : ∀ {ts : List Token} {slots : List (Option Data)},
      row false ms ts = .ok (slots, rest) →
        skip .separator (.list :: opened) ts = skip .separator opened rest)
    {ts : List Token} {slots : List (Option Data)}
    (h : ((m.slot ts).bind fun r =>
      (row false ms r.2).bind fun r' => .ok (r.1 :: r'.1, r'.2)) = Except.ok (slots, rest)) :
    skip .value (.list :: opened) ts = skip .separator opened rest := by
  obtain ⟨⟨v, ts₁⟩, hslot, h⟩ := exists_of_bind_eq_ok h
  obtain ⟨⟨vs, ts₂⟩, hrest, heq⟩ := exists_of_bind_eq_ok h
  cases heq
  exact (skims_slot hm hslot _).trans (ih hrest)

theorem skip_of_row {ms : List Member} (h : ∀ m ∈ ms, Skims m.read) {first : Bool}
    {ts rest : List Token} {slots : List (Option Data)}
    (hrow : row first ms ts = .ok (slots, rest)) :
    skip (if first then .firstItem else .separator) (.list :: opened) ts =
      skip .separator opened rest := by
  induction ms generalizing first ts slots with
  | nil =>
      rcases ts with _ | ⟨t, ts⟩
      · cases hrow
      by_cases hclose : t = .closeList
      · rw [hclose] at hrow ⊢
        exact skip_of_row_closeList hrow
      · rw [row] at hrow
        · cases hrow
        · exact hclose
  | cons m ms ih =>
      obtain ⟨hm, hms⟩ := List.forall_mem_cons.mp h
      rcases ts with _ | ⟨t, ts⟩
      · cases hrow
      by_cases hclose : t = .closeList
      · rw [hclose] at hrow ⊢
        exact skip_of_row_closeList hrow
      rw [row] at hrow
      · cases first with
        | true =>
            rw [if_pos rfl, skip_firstItem_cons hclose]
            exact skip_of_slot_row hm (ih hms) hrow
        | false =>
            obtain ⟨ts₁, hseparated, hrow⟩ := exists_of_bind_eq_ok hrow
            rw [eq_of_separated_eq_ok hseparated]
            exact skip_of_slot_row hm (ih hms) hrow
      · exact List.cons_ne_nil _ _
      · exact fun ts' hts => hclose (List.cons.inj hts).1

/-! ### 開いた括弧の外 -/

theorem skip_cons {expected : Expected} (h : expected = .separator → opened ≠ []) (t : Token)
    (ts : List Token) : skip expected opened (t :: ts) =
      (advance expected opened t).bind fun next => skip next.1 next.2 ts := by
  rw [skip]
  · cases advance expected opened t <;> rfl
  · exact h

theorem advance_append {expected expected' : Expected} {inner inner' : List Bracket} {t : Token}
    (h : advance expected inner t = .ok (expected', inner')) (opened : List Bracket) :
    advance expected (inner ++ opened) t = .ok (expected', inner' ++ opened) := by
  cases expected <;> rcases inner with _ | ⟨_ | _, inner⟩ <;> cases t <;> cases h <;>
    first | rfl | (cases opened <;> rfl)

theorem eq_of_skip_nil_eq_ok {expected : Expected} {rest : List Token}
    (h : skip expected opened [] = .ok rest) :
    expected = .separator ∧ opened = [] ∧ rest = [] := by
  cases expected <;> cases opened <;> cases h
  exact ⟨rfl, rfl, rfl⟩

/-- 値の終わりまでの読み飛ばしは、外で開いている括弧によらない。 -/
theorem skip_append {expected : Expected} {inner : List Bracket} {ts rest : List Token}
    (h : skip expected inner ts = .ok rest) (opened : List Bracket) :
    skip expected (inner ++ opened) ts = skip .separator opened rest := by
  induction ts generalizing expected inner with
  | nil =>
      obtain ⟨rfl, rfl, rfl⟩ := eq_of_skip_nil_eq_ok h
      rfl
  | cons t ts ih =>
      by_cases hend : expected = .separator ∧ inner = []
      · obtain ⟨rfl, rfl⟩ := hend
        rw [skip] at h
        cases h
        rfl
      · have hinner : expected = .separator → inner ≠ [] := not_and.mp hend
        rw [skip_cons hinner] at h
        obtain ⟨⟨expected', inner'⟩, hadvance, hskip⟩ := exists_of_bind_eq_ok h
        rw [skip_cons fun hexpected => List.append_ne_nil_of_left_ne_nil (hinner hexpected) _,
          advance_append hadvance]
        exact ih hskip

theorem skip_of_entry {key : String} {drafts drafts' : List Draft} {ts rest : List Token}
    (h : ∀ m ∈ drafts.map Draft.member, Skims m.read)
    (hentry : entry key drafts ts = .ok (drafts', rest)) :
    (∀ opened, skip .colon (.record :: opened) ts = skip .separator (.record :: opened) rest) ∧
      drafts'.map Draft.member = drafts.map Draft.member := by
  unfold entry at hentry
  split at hentry
  · rename_i m hdraft
    obtain ⟨ts₁, hcolon, hentry⟩ := exists_of_bind_eq_ok hentry
    obtain ⟨⟨v, ts₂⟩, hslot, heq⟩ := exists_of_bind_eq_ok hentry
    cases heq
    rw [eq_of_expect_eq_ok hcolon, map_member_fill]
    exact ⟨fun opened => skims_slot (h m (member_mem_of_draft? hdraft)) hslot _, rfl⟩
  · cases hentry
  · obtain ⟨ts₁, hcolon, hentry⟩ := exists_of_bind_eq_ok hentry
    obtain ⟨ts₂, hskip, heq⟩ := exists_of_bind_eq_ok hentry
    cases heq
    rw [eq_of_expect_eq_ok hcolon]
    exact ⟨fun opened => skip_append hskip _, rfl⟩

/-- 記録の終わりでなければ、記録の最初の名札は、ほかの名札と同じに読み飛ばされる。 -/
theorem skip_firstKey_cons {t : Token} (h : t ≠ .closeRecord) (ts : List Token) :
    skip .firstKey opened (t :: ts) = skip .key opened (t :: ts) := by
  have hadvance : advance .firstKey opened t = advance .key opened t := by
    cases opened <;> cases t <;> first | rfl | exact absurd rfl h
  rw [skip, skip, hadvance]
  all_goals exact fun hexpected => Expected.noConfusion hexpected

theorem skip_of_entries {drafts drafts' : List Draft} {ts rest : List Token}
    (h : ∀ m ∈ drafts.map Draft.member, Skims m.read)
    (hentries : entries drafts ts = .ok (drafts', rest)) :
    skip .key (.record :: opened) ts = skip .separator opened rest := by
  fun_induction entries drafts ts with
  | case4 drafts key tail drafts'' rest' hentry =>
      cases hentries
      exact (skip_of_entry h hentry).1 opened
  | case5 drafts key tail drafts'' rest' hentry hlength ih =>
      obtain ⟨hskip, hmembers⟩ := skip_of_entry h hentry
      exact (hskip opened).trans (ih (hmembers ▸ h) hentries)
  | _ => cases hentries

theorem skims_record {ms : List Member} (h : ∀ m ∈ ms, Skims m.read) : Skims (record ms) := by
  intro ts d rest hrecord opened
  unfold record at hrecord
  split at hrecord
  · obtain ⟨⟨slots, ts₁⟩, hrow, heq⟩ := exists_of_bind_eq_ok hrecord
    cases heq
    exact skip_of_row h hrow
  · rename_i ts
    dsimp only at hrecord
    split at hrecord
    · obtain ⟨_, hpure, hrecord⟩ := exists_of_bind_eq_ok hrecord
      cases hpure
      obtain ⟨slots, -, heq⟩ := exists_of_bind_eq_ok hrecord
      cases heq
      rfl
    · obtain ⟨⟨drafts, ts₁⟩, hentries, hrecord⟩ := exists_of_bind_eq_ok hrecord
      obtain ⟨slots, -, heq⟩ := exists_of_bind_eq_ok hrecord
      cases heq
      rename_i hclose _
      rw [← skip_of_entries ((map_member_fresh ms).symm ▸ h) hentries]
      rcases ts with _ | ⟨t, ts⟩
      · rw [entries.eq_def] at hentries
        cases hentries
      · rw [← skip_firstKey_cons fun ht => hclose ts (ht ▸ rfl)]
        rfl
  · cases hrecord

end Record

/-! ## 形に沿った読み -/

mutual
theorem skims_value : ∀ shape : Shape, Skims (value shape)
  | .text => by rw [value]; exact skims_text
  | .flag => by rw [value]; exact skims_flag
  | .natural bound => by rw [value]; exact skims_natural bound
  | .choice names => by rw [value]; exact skims_choice names
  | .list item => by rw [value]; exact skims_list (skims_value item)
  | .record ms => by rw [value]; exact skims_record (skims_members ms)

theorem skims_members (ms : Members) : ∀ m ∈ members ms, Skims m.read := by
  cases ms with
  | nil =>
      rw [members]
      exact List.forall_mem_nil _
  | cons key presence shape ms =>
      rw [members]
      exact List.forall_mem_cons.mpr ⟨skims_value shape, skims_members ms⟩
end

/-! ## 読み飛ばした字句 -/

/-- 値の後に、開いた括弧をすべて閉じるまでに書かれる字句。 -/
def Closes : List Bracket → List Lexeme → Prop
  | [], ls => ls = []
  | .list :: opened, ls => ∃ ns rest, ls = Node.itemLexemes ns ++ rest ∧ Closes opened rest
  | .record :: opened, ls => ∃ ms rest, ls = Node.memberLexemes ms ++ rest ∧ Closes opened rest

/-- 次に `expected` が来る所から、開いた括弧をすべて閉じるまでに書かれる字句。記録の中にない名札のような、読み飛ばしの途中に
現れない組み合わせでは、何も求めない。 -/
def Completes : Expected → List Bracket → List Lexeme → Prop
  | .separator, opened, ls => Closes opened ls
  | .value, opened, ls => ∃ n rest, ls = Node.lexemes n ++ rest ∧ Closes opened rest
  | .firstItem, .list :: opened, ls =>
    ∃ ns rest, ls = Node.bodyLexemes ns ++ rest ∧ Closes opened rest
  | .firstKey, .record :: opened, ls =>
    ∃ ms rest, ls = Node.entryLexemes ms ++ rest ∧ Closes opened rest
  | .key, .record :: opened, ls =>
    ∃ m ms rest, ls = Node.entryLexemes (m :: ms) ++ rest ∧ Closes opened rest
  | .colon, .record :: opened, ls =>
    ∃ n ms rest, ls = .colon :: (Node.lexemes n ++ Node.memberLexemes ms) ++ rest ∧
      Closes opened rest
  | _, _, _ => True

section Completes

variable {expected expected' : Expected} {opened opened' : List Bracket} {l : Lexeme}
  {ls : List Lexeme}

theorem completes_value (h : afterValue opened l.token = .ok (expected', opened'))
    (hls : Completes expected' opened' ls) :
    ∃ n rest, l :: ls = Node.lexemes n ++ rest ∧ Closes opened rest := by
  cases l with
  | openList =>
      cases h
      obtain ⟨ns, rest, rfl, hrest⟩ := hls
      exact ⟨.list ns, rest, by rw [Node.lexemes_list, List.cons_append], hrest⟩
  | openRecord =>
      cases h
      obtain ⟨ms, rest, rfl, hrest⟩ := hls
      exact ⟨.record ms, rest, by rw [Node.lexemes_record, List.cons_append], hrest⟩
  | null => cases h; exact ⟨.null, ls, rfl, hls⟩
  | flag b => cases h; exact ⟨.flag b, ls, rfl, hls⟩
  | number f => cases h; exact ⟨.number f, ls, rfl, hls⟩
  | text q => cases h; exact ⟨.text q, ls, rfl, hls⟩
  | _ => cases h

theorem completes_key (h : afterKey (.record :: opened) l.token = .ok (expected', opened'))
    (hls : Completes expected' opened' ls) :
    ∃ m ms rest, l :: ls = Node.entryLexemes (m :: ms) ++ rest ∧ Closes opened rest := by
  cases l with
  | text q =>
      cases h
      obtain ⟨n, ms, rest, rfl, hrest⟩ := hls
      exact ⟨(q, n), ms, rest, rfl, hrest⟩
  | _ => cases h

theorem completes_firstItem
    (h : advance .firstItem (.list :: opened) l.token = .ok (expected', opened'))
    (hls : Completes expected' opened' ls) : Completes .firstItem (.list :: opened) (l :: ls) := by
  by_cases hclose : l = .closeList
  · subst hclose
    cases h
    exact ⟨[], ls, rfl, hls⟩
  · have hvalue : afterValue (.list :: opened) l.token = .ok (expected', opened') := by
      cases l <;> first | exact h | exact absurd rfl hclose
    obtain ⟨n, rest, heq, ns, rest', rfl, hrest⟩ := completes_value hvalue hls
    exact ⟨n :: ns, rest', by rw [heq, Node.bodyLexemes, List.append_assoc], hrest⟩

theorem completes_firstKey
    (h : advance .firstKey (.record :: opened) l.token = .ok (expected', opened'))
    (hls : Completes expected' opened' ls) : Completes .firstKey (.record :: opened) (l :: ls) := by
  by_cases hclose : l = .closeRecord
  · subst hclose
    cases h
    exact ⟨[], ls, rfl, hls⟩
  · have hkey : afterKey (.record :: opened) l.token = .ok (expected', opened') := by
      cases l <;> first | exact h | exact absurd rfl hclose
    obtain ⟨m, ms, rest, heq, hrest⟩ := completes_key hkey hls
    exact ⟨m :: ms, rest, heq, hrest⟩

theorem completes_separator (h : advance .separator opened l.token = .ok (expected', opened'))
    (hls : Completes expected' opened' ls) : Closes opened (l :: ls) := by
  rcases opened with _ | ⟨_ | _, opened⟩
  · cases l <;> cases h
  · cases l with
    | comma =>
        cases h
        obtain ⟨n, rest, rfl, ns, rest', rfl, hrest⟩ := hls
        exact ⟨n :: ns, rest', by rw [Node.itemLexemes, List.cons_append, List.append_assoc], hrest⟩
    | closeList => cases h; exact ⟨[], ls, rfl, hls⟩
    | _ => cases h
  · cases l with
    | comma =>
        cases h
        obtain ⟨m, ms, rest, rfl, hrest⟩ := hls
        exact ⟨m :: ms, rest, by rw [Node.memberLexemes]; rfl, hrest⟩
    | closeRecord => cases h; exact ⟨[], ls, rfl, hls⟩
    | _ => cases h

/-- 字句を一つ読み飛ばす前に書かれていた字句は、読み飛ばした後に書かれる字句の前に、その字句を置いたものである。 -/
theorem completes_cons (h : advance expected opened l.token = .ok (expected', opened'))
    (hls : Completes expected' opened' ls) : Completes expected opened (l :: ls) := by
  cases expected with
  | value => exact completes_value h hls
  | separator => exact completes_separator h hls
  | firstItem =>
      rcases opened with _ | ⟨_ | _, opened⟩
      · trivial
      · exact completes_firstItem h hls
      · trivial
  | firstKey =>
      rcases opened with _ | ⟨_ | _, opened⟩
      · trivial
      · trivial
      · exact completes_firstKey h hls
  | key =>
      rcases opened with _ | ⟨_ | _, opened⟩
      · trivial
      · trivial
      · exact completes_key h hls
  | colon =>
      rcases opened with _ | ⟨_ | _, opened⟩
      · trivial
      · trivial
      · cases l with
        | colon =>
            cases h
            obtain ⟨n, rest, rfl, ms, rest', rfl, hrest⟩ := hls
            exact ⟨n, ms, rest', by rw [List.cons_append, List.append_assoc], hrest⟩
        | _ => cases h

theorem advance_of_isBroken {t : Token} {next : Expected × List Bracket} (h : t.isBroken = true) :
    advance expected opened t ≠ .ok next := by
  intro hadvance
  cases t <;> cases h <;> cases expected <;> rcases opened with _ | ⟨_ | _, opened⟩ <;>
    cases hadvance

/-- 読み飛ばした字句は、開いた括弧をすべて閉じるまでに書かれた字句である。 -/
theorem exists_of_skip_eq_ok {tail rest : List Token} (hbroken : ∀ t ∈ tail, t.isBroken = true)
    (h : skip expected opened (ls.map Lexeme.token ++ tail) = .ok rest) :
    ∃ skipped unread, ls = skipped ++ unread ∧ rest = unread.map Lexeme.token ++ tail ∧
      Completes expected opened skipped := by
  induction ls generalizing expected opened with
  | nil =>
      by_cases hend : expected = .separator ∧ opened = []
      · obtain ⟨rfl, rfl⟩ := hend
        rw [skip] at h
        cases h
        exact ⟨[], [], rfl, rfl, rfl⟩
      rcases tail with _ | ⟨t, tail⟩
      · obtain ⟨rfl, rfl, -⟩ := eq_of_skip_nil_eq_ok h
        exact absurd ⟨rfl, rfl⟩ hend
      · rw [List.map_nil, List.nil_append, skip_cons (not_and.mp hend)] at h
        obtain ⟨next, hadvance, -⟩ := exists_of_bind_eq_ok h
        exact absurd hadvance (advance_of_isBroken (hbroken t List.mem_cons_self))
  | cons l ls ih =>
      by_cases hend : expected = .separator ∧ opened = []
      · obtain ⟨rfl, rfl⟩ := hend
        rw [skip] at h
        cases h
        exact ⟨[], l :: ls, rfl, rfl, rfl⟩
      · rw [List.map_cons, List.cons_append, skip_cons (not_and.mp hend)] at h
        obtain ⟨⟨expected', opened'⟩, hadvance, hskip⟩ := exists_of_bind_eq_ok h
        obtain ⟨skipped, unread, rfl, rfl, hskipped⟩ := ih hskip
        exact ⟨l :: skipped, unread, rfl, rfl, completes_cons hadvance hskipped⟩

end Completes

/-- 値に読める文字列は、構文木の書きかたである。 -/
theorem exists_spells_of_read_eq_ok {shape : Shape} {s : String} {d : Data}
    (h : read shape s = .ok d) : ∃ n, Node.Spells n s := by
  obtain ⟨⟨d', rest⟩, hvalue, hrest⟩ := exists_of_bind_eq_ok h
  have hnil : rest = [] := by
    cases rest with
    | nil => rfl
    | cons t ts => cases hrest
  obtain ⟨ls, tail, htokens, hbroken, hspaced⟩ := exists_tokens_eq s.toList
  have hskip := skims_value shape hvalue []
  rw [htokens, hnil, skip] at hskip
  obtain ⟨skipped, unread, rfl, hunread, n, rest', rfl, rfl⟩ := exists_of_skip_eq_ok hbroken hskip
  obtain ⟨hunread, htail⟩ := List.append_eq_nil_iff.mp hunread.symm
  rw [List.map_eq_nil_iff.mp hunread, List.append_nil, List.append_nil] at hspaced
  exact ⟨n, hspaced htail⟩

end SpecLineage.Json
