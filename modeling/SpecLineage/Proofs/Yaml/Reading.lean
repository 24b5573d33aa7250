import SpecLineage.Proofs.Sequence
import SpecLineage.Proofs.Yaml.Lexeme
import SpecLineage.Yaml.Read

/-!
# 書いた YAML の読み

形に沿う値に名札をつけた木は、その字句から元の値に読める。書いた木には目印も名札もないので、字句から作る木は
名札つきの木をそのまま写したものになる。
-/

namespace SpecLineage.Yaml

/-! ## 木 -/

mutual
/-- 名札つきの木を書いて読んだ木。 -/
def nodeOf {α : Type} : Tree → Node α
  | .text s => .scalar none none (styleOf s) s
  | .flag b => .scalar none none .plain (toString b)
  | .natural n => .scalar none none .plain (toString n)
  | .list ts => .list none (itemNodes ts)
  | .record ms => .record none (entryNodes ms)

def itemNodes {α : Type} : List Tree → List (Node α)
  | [] => []
  | t :: ts => nodeOf t :: itemNodes ts

def entryNodes {α : Type} : List (String × Tree) → List (Node α × Node α)
  | [] => []
  | (key, t) :: ms => (.scalar none none .plain key, nodeOf t) :: entryNodes ms
end

namespace Node

variable {handles : Handles}

theorem skips_lexemes (t : Tree) (rest : List Token) : skipsMember (lexemes t ++ rest) = false ∧
    ((t.isScalar || Toml.isRecord t) = true → skipsItem (lexemes t ++ rest) = false) := by
  rcases t with str | b | n | (_ | ⟨t, ts⟩) | (_ | ⟨⟨key, t⟩, ms⟩) <;> rw [lexemes] <;>
    refine ⟨rfl, fun h => ?_⟩ <;> first | rfl | cases h

theorem length_lexemes_pos (t : Tree) : 0 < (lexemes t).length := by
  rcases t with str | b | n | (_ | ⟨t, ts⟩) | (_ | ⟨⟨key, t⟩, ms⟩) <;> rw [lexemes] <;>
    exact Nat.succ_pos _

theorem exists_fuel {t : Tree} {fuel : Nat} (h : 2 * (lexemes t).length ≤ fuel) :
    ∃ f, fuel = f + 1 := by
  have hpos := length_lexemes_pos t
  exact Nat.exists_eq_succ_of_ne_zero (by omega)

theorem value_scalar (fuel : Nat) (place : Place) (style : Style) (text : String) (ts : List Token) :
    value handles (fuel + 1) place (.scalar style text :: ts) =
      some (.scalar none none style text, ts) := by
  cases place <;> simp [value, properties]

mutual
/-- 木の字句は、木をそのまま写した値に読める。空でない並びは、鍵の後にだけ、ほかの並びの印が続かない所に書ける。 -/
theorem value_lexemes : ∀ (t : Tree), t.Regular → ∀ {fuel : Nat} {place : Place}
    {rest : List Token}, 2 * (lexemes t).length ≤ fuel →
    (place = .member ∧ (∀ ts, rest ≠ .entry :: ts) ∨
      place = .block ∧ (t.isScalar || Toml.isRecord t) = true) →
    value handles fuel place (lexemes t ++ rest) = some (nodeOf t, rest)
  | .text str, _, fuel, place, rest, hfuel, _ => by
      obtain ⟨fuel, rfl⟩ := exists_fuel hfuel
      rw [lexemes, nodeOf]
      exact value_scalar fuel place (styleOf str) str rest
  | .flag b, _, fuel, place, rest, hfuel, _ => by
      obtain ⟨fuel, rfl⟩ := exists_fuel hfuel
      rw [lexemes, nodeOf]
      exact value_scalar fuel place .plain (toString b) rest
  | .natural n, _, fuel, place, rest, hfuel, _ => by
      obtain ⟨fuel, rfl⟩ := exists_fuel hfuel
      rw [lexemes, nodeOf]
      exact value_scalar fuel place .plain (toString n) rest
  | .list [], _, fuel, place, rest, hfuel, _ => by
      obtain ⟨fuel, rfl⟩ := exists_fuel hfuel
      cases place <;> simp [lexemes, nodeOf, value, properties, flowItems, itemNodes]
  | .list (t :: ts), hregular, fuel, place, rest, hfuel, hplace => by
      obtain ⟨fuel, rfl⟩ := exists_fuel hfuel
      -- 並びの中の並びは書けないから、ここは鍵の後である。
      obtain ⟨rfl, hrest⟩ := hplace.resolve_right fun h => Bool.noConfusion h.2
      rw [Tree.Regular] at hregular
      have hitems : sameIndent handles fuel (itemLexemes (t :: ts) ++ rest) = _ :=
        sameIndent_itemLexemes (t :: ts) hregular.2 (Scan.all_isScalar_or hregular.1) hfuel hrest
      rw [itemLexemes, List.cons_append] at hitems
      rw [lexemes, nodeOf, List.cons_append, value.eq_def]
      simp only [properties, hitems, Option.bind_eq_bind, Option.bind_some, Option.pure_def]
  | .record [], _, fuel, place, rest, hfuel, _ => by
      obtain ⟨fuel, rfl⟩ := exists_fuel hfuel
      cases place <;> simp [lexemes, nodeOf, value, properties, flowEntries, entryNodes]
  | .record ((key, t) :: ms), hregular, fuel, place, rest, hfuel, hplace => by
      obtain ⟨fuel, rfl⟩ := exists_fuel hfuel
      rw [Tree.Regular] at hregular
      rw [lexemes_record, List.length_cons, List.length_append] at hfuel
      have hentries : blockEntries handles fuel
          (memberLexemes ((key, t) :: ms) ++ .blockEnd :: rest) = _ :=
        blockEntries_memberLexemes ((key, t) :: ms) hregular.2 (by omega)
      rw [lexemes_record, nodeOf, List.cons_append, List.append_assoc, List.singleton_append]
      obtain ⟨rfl, -⟩ | ⟨rfl, -⟩ := hplace <;>
        simp only [value, properties, hentries, Option.bind_eq_bind, Option.bind_some,
          Option.pure_def]

theorem sameIndent_itemLexemes : ∀ (ts : List Tree), Tree.RegularItems ts →
    (∀ t ∈ ts, (t.isScalar || Toml.isRecord t) = true) → ∀ {fuel : Nat} {rest : List Token},
    2 * (itemLexemes ts).length ≤ fuel + 1 → (∀ ts, rest ≠ .entry :: ts) →
    sameIndent handles fuel (itemLexemes ts ++ rest) = some (itemNodes ts, rest)
  | [], _, _, fuel, rest, _, hrest => by
      rw [itemLexemes, itemNodes, List.nil_append, sameIndent.eq_def]
      split
      · exact absurd rfl (hrest _)
      · exact absurd rfl (hrest _)
      · rfl
  | t :: ts, hregular, hitems, fuel, rest, hfuel, hrest => by
      rw [Tree.RegularItems] at hregular
      obtain ⟨ht, hts⟩ := List.forall_mem_cons.mp hitems
      rw [itemLexemes, List.length_cons, List.length_append] at hfuel
      obtain ⟨fuel, rfl⟩ : ∃ f, fuel = f + 1 := Nat.exists_eq_succ_of_ne_zero (by omega)
      have hvalue : value handles fuel .block (lexemes t ++ (itemLexemes ts ++ rest)) = _ :=
        value_lexemes t hregular.1 (by omega) (.inr ⟨rfl, ht⟩)
      have hitems : sameIndent handles fuel (itemLexemes ts ++ rest) = _ :=
        sameIndent_itemLexemes ts hregular.2 hts (by omega) hrest
      obtain ⟨hmember, hitem⟩ := skips_lexemes t (itemLexemes ts ++ rest)
      rw [itemLexemes, itemNodes, List.cons_append, List.append_assoc, sameIndent, orEmpty, hmember,
        hitem ht, Bool.or_self, if_neg Bool.false_ne_true, hvalue]
      simp only [hitems, Option.bind_eq_bind, Option.bind_some, Option.pure_def]

theorem blockEntries_memberLexemes : ∀ (ms : List (String × Tree)), Tree.RegularMembers ms →
    ∀ {fuel : Nat} {rest : List Token}, 2 * (memberLexemes ms).length ≤ fuel →
    blockEntries handles fuel (memberLexemes ms ++ .blockEnd :: rest) = some (entryNodes ms, rest)
  | [], _, fuel, rest, _ => by
      rw [memberLexemes, entryNodes, List.nil_append, blockEntries]
  | (key, t) :: ms, hregular, fuel, rest, hfuel => by
      rw [Tree.RegularMembers] at hregular
      simp only [memberLexemes, List.length_cons, List.length_append] at hfuel
      obtain ⟨fuel, rfl⟩ : ∃ f, fuel = f + 2 := Nat.exists_eq_add_of_le' (by omega)
      have hrest : ∀ ts, memberLexemes ms ++ .blockEnd :: rest ≠ .entry :: ts := by
        rcases ms with _ | ⟨⟨key, t⟩, ms⟩ <;> rw [memberLexemes] <;> exact fun ts h => nomatch h
      have hvalue : value handles (fuel + 1) .member
          (lexemes t ++ (memberLexemes ms ++ .blockEnd :: rest)) = _ :=
        value_lexemes t hregular.2.1 (by omega) (.inl ⟨rfl, hrest⟩)
      have hentries : blockEntries handles (fuel + 1) (memberLexemes ms ++ .blockEnd :: rest) = _ :=
        blockEntries_memberLexemes ms hregular.2.2 (by omega)
      obtain ⟨hmember, -⟩ := skips_lexemes t (memberLexemes ms ++ .blockEnd :: rest)
      simp only [memberLexemes, entryNodes, List.cons_append, List.append_assoc]
      have hkey (ts : List Token) : skipsMember (.scalar .plain key :: ts) = false := rfl
      rw [blockEntries, orEmpty]
      simp only [hkey, value_scalar, afterValue, orEmpty, hmember, hvalue, hentries,
        Bool.false_eq_true, ↓reduceIte, Option.bind_eq_bind, Option.bind_some, Option.pure_def]
end

/-- 項目を持つ記録の木は、その字句が表すただ一つの文書である。 -/
theorem ofTokens?_lexemes {m : String × Tree} {ms : List (String × Tree)}
    (h : (Tree.record (m :: ms)).Regular) :
    ofTokens? (lexemes (.record (m :: ms))) = some (some (nodeOf (.record (m :: ms)))) := by
  have hvalue : value ([] ++ standardHandles) (3 * (lexemes (.record (m :: ms))).length + 3) .block
      (lexemes (.record (m :: ms)) ++ []) = _ :=
    value_lexemes (.record (m :: ms)) h (by omega) (.inr ⟨rfl, rfl⟩)
  rw [List.append_nil] at hvalue
  rw [lexemes_record] at hvalue ⊢
  simp only [ofTokens?, prologue, hvalue, skipEnds, List.isEmpty_nil, Bool.false_eq_true, ↓reduceIte,
    Option.bind_eq_bind, Option.bind_some, Option.pure_def]

/-! ## 目印 -/

mutual
theorem numbered_nodeOf (names : Anchors) : ∀ t : Tree,
    numbered names (nodeOf t) = some (nodeOf t, names)
  | .text _ | .flag _ | .natural _ => by simp only [nodeOf, numbered, Anchors.number]
  | .list ts => by
      simp only [nodeOf, numbered, Anchors.number, numberedItems_itemNodes names ts,
        Option.bind_eq_bind, Option.bind_some, Option.pure_def]
  | .record ms => by
      simp only [nodeOf, numbered, Anchors.number, numberedEntries_entryNodes names ms,
        Option.bind_eq_bind, Option.bind_some, Option.pure_def]

theorem numberedItems_itemNodes (names : Anchors) : ∀ ts : List Tree,
    numberedItems names (itemNodes ts) = some (itemNodes ts, names)
  | [] => by simp only [itemNodes, numberedItems]
  | t :: ts => by
      simp only [itemNodes, numberedItems, numbered_nodeOf names t, numberedItems_itemNodes names ts,
        Option.bind_eq_bind, Option.bind_some, Option.pure_def]

theorem numberedEntries_entryNodes (names : Anchors) : ∀ ms : List (String × Tree),
    numberedEntries names (entryNodes ms) = some (entryNodes ms, names)
  | [] => by simp only [entryNodes, numberedEntries]
  | (key, t) :: ms => by
      simp only [entryNodes, numberedEntries, numbered, Anchors.number, numbered_nodeOf names t,
        numberedEntries_entryNodes names ms, Option.bind_eq_bind, Option.bind_some, Option.pure_def]
end

end Node

/-! ## 形に沿った読み -/

variable {target : Target}

theorem follow_nodeOf (t : Tree) : follow target (nodeOf t) = pure (nodeOf t) := by
  cases t <;> rw [nodeOf] <;> rfl

/-- 木 `t` を値 `d` に読む。 -/
def Reads (read : Read) (t : Tree) (d : Data) : Prop := read (nodeOf t) = pure d

theorem itemNodes_eq_map (ts : List Tree) : itemNodes ts = ts.map (nodeOf (α := Nat)) := by
  induction ts with
  | nil => rw [itemNodes, List.map_nil]
  | cons t ts ih => rw [itemNodes, List.map_cons, ih]

theorem reads_list {item : Read} {tree : Data → Tree} (ds : List Data)
    (h : ∀ d ∈ ds, Reads item (tree d) d) :
    Reads (list target item) (.list (ds.map tree)) (.list ds) := by
  have hitems : (itemNodes (ds.map tree)).mapM (fun node => do item (← follow target node)) =
      (pure ds : Reader (List Data)) := by
    rw [itemNodes_eq_map, List.map_map]
    refine List.mapM_map_eq_pure fun d hd => ?_
    rw [Function.comp_apply, follow_nodeOf, pure_bind]
    exact h d hd
  rw [Reads, nodeOf, list, hitems, pure_bind]

/-! ### 欠けた項目との区別 -/

theorem isDigit_of_mem_toString {n : Nat} {c : Char} (h : c ∈ (toString n).toList) :
    c.isDigit = true := by
  rw [Nat.toString_eq_ofList_toDigits, String.toList_ofList] at h
  exact isDigit_of_mem_toDigits h

theorem isEmpty_toString (n : Nat) : (toString n).isEmpty = false := by
  rw [Bool.eq_false_iff, Ne, String.isEmpty_iff]
  intro h
  exact (isWordChar_natural n).1 (by rw [h]; rfl)

theorem isNull_toString (n : Nat) : isNull (toString n) = false := by
  have hdigit {c : Char} (hc : c.isDigit = false) : c ∉ (toString n).toList := fun h =>
    absurd (isDigit_of_mem_toString h) (Bool.eq_false_iff.mp hc)
  rw [isNull, decide_eq_false_iff_not]
  simp only [List.mem_cons, List.not_mem_nil, or_false]
  rintro (h | h | h | h)
  · exact hdigit (c := 'n') (by decide) (by rw [h]; decide)
  · exact hdigit (c := 'N') (by decide) (by rw [h]; decide)
  · exact hdigit (c := 'N') (by decide) (by rw [h]; decide)
  · exact hdigit (c := '~') (by decide) (by rw [h]; decide)

/-- 書いた値は、欠けた項目とは読まれない。 -/
theorem isAbsent_nodeOf (t : Tree) {s : Scalar} (h : scalar? (nodeOf t) = some s) :
    s.isAbsent = some false := by
  rcases t with str | b | n | ts | ms <;> rw [nodeOf] at h <;> cases h
  · obtain ⟨hstyle, -⟩ | ⟨hstyle, hambiguous, -⟩ | ⟨hstyle, -⟩ | hstyle := styleOf_cases str
    case inr.inl =>
      simp only [isAmbiguous, Bool.or_eq_false_iff] at hambiguous
      simp [Scalar.isAbsent, hstyle, hambiguous.1.1.1, hambiguous.1.1.2]
    all_goals simp [Scalar.isAbsent, hstyle]
  · cases b <;> decide
  · rw [Scalar.isAbsent, if_neg (by simp)]
    simp only [isEmpty_toString, isNull_toString, Bool.or_self]

/-! ### 記録 -/

/-- まだ現れない項目。 -/
def fresh (ms : List Member) : List Draft := ms.map fun m => { member := m }

/-- 読み終えた項目。欠けた項目は現れないままである。 -/
def filled (ms : List Member) (slots : List (Option Data)) : List Draft :=
  List.zipWith (fun m slot => { member := m, seen := slot.map some }) ms slots

/-- 項目の名。 -/
def draftKeys (drafts : List Draft) : List String := drafts.map fun d => d.member.key

/-- 項目 `ms` の値 `slots` を、名札をつけた木 `trees` に書いてある。 -/
inductive Written : List Member → List (Option Data) → List (String × Tree) → Prop
  | nil : Written [] [] []
  | absent {m : Member} {ms : List Member} {slots : List (Option Data)}
    {trees : List (String × Tree)} :
    m.presence ≠ .required → Written ms slots trees → Written (m :: ms) (none :: slots) trees
  | present {m : Member} {ms : List Member} {d : Data} {slots : List (Option Data)} {t : Tree}
    {trees : List (String × Tree)} :
    Reads m.read t d → Written ms slots trees →
      Written (m :: ms) (some d :: slots) ((m.key, t) :: trees)

section Record

variable {m : Member} {ms : List Member} {t : Tree} {d : Data} {slots : List (Option Data)}
  {trees : List (String × Tree)} {done todo : List Draft}

theorem slot_nodeOf (h : Reads m.read t d) : m.slot (nodeOf t) = pure (some d) := by
  have hread : m.read (nodeOf t) = pure d := h
  rw [Member.slot]
  split
  · split
    · rename_i s hs
      rw [isAbsent_nodeOf t hs, hread]
      rfl
    · rw [hread, map_pure]
  · rw [hread, map_pure]

theorem find?_fresh (hdone : m.key ∉ draftKeys done) :
    (done ++ { member := m } :: todo).find? (fun d => d.member.key == m.key) =
      some { member := m } :=
  List.find?_append_cons_of_notMem (a := { member := m }) (f := fun d : Draft => d.member.key) hdone

theorem fill_fresh (hdone : m.key ∉ draftKeys done) (htodo : m.key ∉ draftKeys todo) :
    fill m.key (some d) (done ++ { member := m } :: todo) =
      done ++ { member := m, seen := some (some d) } :: todo :=
  List.map_ite_key_append_cons (a := { member := m }) (f := fun d : Draft => d.member.key) hdone htodo
    fun x => { x with seen := some (some d) }

theorem Written.mapM_filled (h : Written ms slots trees) {f : Draft → Reader (Option Data)}
    (hseen : ∀ m value, f { member := m, seen := some value } = pure value)
    (habsent : ∀ m, f { member := m } = m.absent) : (filled ms slots).mapM f = pure slots := by
  induction h with
  | nil => rfl
  | absent hpresence _ ih =>
      rw [filled, List.zipWith_cons_cons, List.mapM_cons, ← filled, ih, Option.map_none, habsent,
        Member.absent, if_neg hpresence, pure_bind, pure_bind]
  | present _ _ ih =>
      rw [filled, List.zipWith_cons_cons, List.mapM_cons, ← filled, ih, Option.map_some, hseen,
        pure_bind, pure_bind]

theorem Written.close_filled (h : Written ms slots trees) :
    close (filled ms slots) = pure (.record slots) := by
  rw [close, h.mapM_filled (fun _ _ => rfl) fun _ => rfl, pure_bind]

/-- 残りの項目を読む。すでに読んだ項目 `done` は変わらない。 -/
theorem Written.entries_eq (h : Written ms slots trees)
    (hkeys : (draftKeys (done ++ fresh ms)).Nodup) :
    entries target (done ++ fresh ms) (entryNodes trees) = pure (done ++ filled ms slots) := by
  induction h generalizing done with
  | nil => rw [entryNodes]; rfl
  | @absent m ms slots trees _ _ ih =>
      -- 書かれていない項目は、現れないまま読み終えた側に移る。
      rw [fresh, List.map_cons, ← fresh, List.append_cons] at hkeys ⊢
      rw [ih hkeys, List.append_assoc]
      rfl
  | @present m ms d slots t trees hread hwritten ih =>
      rw [fresh, List.map_cons, ← fresh] at hkeys ⊢
      obtain ⟨hdone, htodo⟩ := List.notMem_map_of_nodup_append_cons hkeys
      have hkeys' : (draftKeys (done ++ [{ member := m, seen := some (some d) }] ++
          fresh ms)).Nodup := by
        simpa only [draftKeys, List.map_append, List.map_cons, List.map_nil, List.append_assoc,
          List.singleton_append] using hkeys
      have hrest := ih hkeys'
      rw [List.append_assoc, List.singleton_append, List.append_assoc, List.singleton_append] at hrest
      have hkey : follow target (.scalar none none .plain m.key) =
        pure (.scalar none none .plain m.key) := rfl
      have hscalar : (scalar? (.scalar none none .plain m.key) : Reader Scalar) =
        pure ⟨none, .plain, m.key⟩ := rfl
      rw [entryNodes, entries, hkey, pure_bind, hscalar, pure_bind]
      simp only [find?_fresh hdone, follow_nodeOf, pure_bind, slot_nodeOf hread,
        fill_fresh hdone htodo, hrest]
      rfl

theorem Written.reads_record (h : Written ms slots trees) (hkeys : (ms.map Member.key).Nodup) :
    Reads (record target ms) (.record trees) (.record slots) := by
  have hfresh : (draftKeys ([] ++ fresh ms)).Nodup := by
    rwa [List.nil_append, draftKeys, fresh, List.map_map]
  have hentries : entries target ([] ++ fresh ms) (entryNodes trees) = _ := h.entries_eq hfresh
  rw [List.nil_append, List.nil_append, fresh] at hentries
  rw [Reads, nodeOf, record, hentries, pure_bind, h.close_filled]

end Record

/-! ### 数 -/

theorem foldl_digits {cs : List Char} (h : ∀ c ∈ cs, c.isDigit = true) (a : Nat) :
    cs.foldl (fun acc c => do
      let d ← Hex.value? c
      if d < 10 then return (← acc) * 10 + d else none) (some a) =
        some (Nat.ofDigitChars 10 cs a) := by
  induction cs generalizing a with
  | nil => rw [Nat.ofDigitChars_nil]; rfl
  | cons c cs ih =>
      obtain ⟨hc, hcs⟩ := List.forall_mem_cons.mp h
      obtain ⟨hvalue, hlt⟩ := Hex.value?_of_isDigit hc
      rw [List.foldl_cons, Nat.ofDigitChars_cons, Nat.mul_comm, ← ih hcs]
      simp only [hvalue, Option.bind_eq_bind, Option.bind_some, hlt, ↓reduceIte, Option.pure_def]

theorem natural?_toString (n : Nat) : natural? (toString n) = some n := by
  obtain ⟨c, cs, hdigits, hc, hzero⟩ := exists_toDigits_eq_cons n
  have hall : ∀ d ∈ c :: cs, d.isDigit = true := fun d hd => isDigit_of_mem_toDigits (hdigits ▸ hd)
  have hne {d : Char} (hd : d.isDigit = false) : c ≠ d := by
    rintro rfl
    exact absurd hc (Bool.eq_false_iff.mp hd)
  have hplus : dropPlus (c :: cs) = c :: cs := by
    unfold dropPlus
    split
    · rename_i heq; exact absurd (List.cons.inj heq).1 (hne (by decide))
    · rfl
  have hradix : radix? (c :: cs) = none := by
    unfold radix?
    split
    all_goals first
      | rfl
      | rename_i heq
        obtain ⟨hc, hcs⟩ := List.cons.inj heq
        exact absurd (hcs.symm.trans (hzero hc)) (List.cons_ne_nil _ _)
  have hpadded : isPadded (c :: cs) = false := by
    unfold isPadded
    split
    · rename_i heq; exact absurd (List.cons.inj heq).1 (hne (by decide))
    · rename_i heq; exact absurd (List.cons.inj heq).1 (hne (by decide))
    · simp only
      split
      · rename_i heq
        obtain ⟨hc, hcs⟩ := List.cons.inj heq
        exact absurd (hcs.symm.trans (hzero hc)) (List.cons_ne_nil _ _)
      · rfl
  have hvalue := foldl_digits hall 0
  rw [← hdigits, Nat.ofDigitChars_ten_toDigits, hdigits] at hvalue
  rw [natural?, Nat.toString_eq_ofList_toDigits, String.toList_ofList, hdigits, hplus, hradix]
  simp only [hpadded, ofDigits?, List.isEmpty_cons, Bool.false_eq_true, ↓reduceIte]
  exact hvalue

theorem reads_natural {n bound : Nat} (h : n < bound) :
    natural bound (.scalar none none .plain (toString n)) = pure (.natural n) := by
  change ((natural? (toString n) : Option Nat) : Reader Nat) >>= (fun n =>
    if n < bound then pure (Data.natural n) else failure) = _
  rw [natural?_toString]
  exact if_pos h

/-! ### 形 -/

theorem map_key_members : ∀ ms : Members, (members target ms).map Member.key = ms.keys
  | .nil => by rw [members, Members.keys, List.map_nil]
  | .cons key _ _ ms => by rw [members, Members.keys, List.map_cons, map_key_members ms]

mutual
theorem reads_typed : ∀ (shape : Shape) {d : Data}, Fits shape d →
    Reads (typed target shape) (shape.tree d) d
  | .text, _, .text s => by rw [Reads, typed, Shape.tree, nodeOf]; rfl
  | .flag, _, .flag b => by rw [Reads, typed, Shape.tree, nodeOf]; cases b <;> rfl
  | .natural bound, _, .natural hn hbound => by
      rw [Reads, typed, Shape.tree, nodeOf]
      exact reads_natural hn
  | .choice names, _, .choice hs => by
      rw [Reads, typed, Shape.tree, nodeOf]
      exact if_pos hs
  | .list item, _, .list hds => by
      rw [typed, Shape.tree]
      exact reads_list _ fun d hd => reads_typed item (hds d hd)
  | .record ms, _, .record hkeys hslots => by
      rw [typed, Shape.tree]
      exact (written_members ms hslots).reads_record (by rwa [map_key_members])

/-- 形に沿う項目の値は、名札をつけた項目に書いてある。 -/
theorem written_members : ∀ (ms : Members) {slots : List (Option Data)}, FitsAll ms slots →
    Written (members target ms) slots (ms.trees slots)
  | .nil, _, .nil => by
      rw [members, Members.trees]
      exact .nil
  | .cons key presence shape ms, _, .absent hpresence hslots => by
      rw [members, Members.trees]
      exact .absent hpresence (written_members ms hslots)
  | .cons key presence shape ms, _, .present hd hslots => by
      rw [members, Members.trees]
      exact .present (reads_typed shape hd) (written_members ms hslots)
end

/-- 形に沿う値は、項目が一つでもあれば、書いた文字列から読み戻せる。 -/
theorem read_write {shape : Shape} {d : Data} (h : Fits shape d) (hshape : shape.isRegular = true)
    {m : String × Tree} {ms : List (String × Tree)} (htree : shape.tree d = .record (m :: ms)) :
    read shape (write (shape.tree d)) = some d := by
  have hregular := regular_tree shape h hshape
  have hreads (target : Target) : typed target shape (nodeOf (shape.tree d)) = pure d :=
    reads_typed shape h
  rw [htree] at hregular hreads ⊢
  rw [read, tokens_write hregular]
  simp only [Node.ofTokens?_lexemes hregular, Node.numbered_nodeOf, follow_nodeOf, pure_bind, hreads,
    Option.bind_eq_bind, Option.bind_some, Option.getD_some]
  rfl

end SpecLineage.Yaml
