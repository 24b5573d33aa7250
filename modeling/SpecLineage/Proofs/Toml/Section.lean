import SpecLineage.Proofs.Toml.Line

/-!
# 書いた TOML の表

読んだ節を順に加えると、書いた記録の表ができる。節を加える所は、見出しの経路をたどって着く表である。表の全体を、着いた
表の項目の関数とみて、その関数が経路に沿うことを保ちながら、節を一つずつ加える。
-/

namespace SpecLineage.Toml

/-! ## 節への分け -/

theorem sections_assignments (body : List Assignment) (ls : List Line) :
    sections (body.map .assignment ++ ls) = (body ++ (sections ls).1, (sections ls).2) := by
  induction body with
  | nil => rfl
  | cons a body ih =>
      rw [List.map_cons, List.cons_append, sections, ih]
      rfl

theorem sections_blocks (bs : List Block) :
    sections (bs.flatMap Block.lines) = ([], bs.map Block.toSection) := by
  induction bs with
  | nil => rfl
  | cons b bs ih =>
      rw [List.flatMap_cons, Block.lines, List.cons_append, sections, sections_assignments, ih,
        List.append_nil]
      rfl

namespace Entries

variable {es pre : Entries} {key : String} {node : Node}

/-- 名の列。 -/
def keys (es : Entries) : List String := es.map Prod.fst

/-! ## 項目 -/

theorem alter_append (h : key ∉ pre.keys) (f : Option Node → Option Node) :
    alter (pre ++ es) key f = (es.alter key f).map (pre ++ ·) := by
  induction pre with
  | nil => exact (congrFun Option.map_id _).symm
  | cons e pre ih =>
      obtain ⟨k, node⟩ := e
      obtain ⟨hk, hpre⟩ : key ≠ k ∧ key ∉ keys pre := not_or.mp fun h' => h (List.mem_cons.mpr h')
      rw [List.cons_append, alter, if_neg (Ne.symm hk), ih hpre]
      cases es.alter key f <;> rfl

theorem alter_fresh (h : key ∉ es.keys) (f : Option Node → Option Node) :
    es.alter key f = (f none).map fun node => es ++ [(key, node)] := by
  have halter : alter (es ++ []) key f = _ := alter_append h f
  rw [List.append_nil, alter] at halter
  rw [halter]
  cases f none <;> rfl

theorem alter_last (h : key ∉ es.keys) (node : Node) (f : Option Node → Option Node) :
    alter (es ++ [(key, node)]) key f = (f (some node)).map fun node => es ++ [(key, node)] := by
  rw [alter_append h, alter, if_pos rfl]
  cases f (some node) <;> rfl

theorem alter_ne_nil (es : Entries) (key : String) (f : Option Node → Option Node) :
    es.alter key f ≠ some [] := by
  rcases es with _ | ⟨⟨k, node⟩, es⟩
  · rw [alter]
    cases f none <;> exact nofun
  · rw [alter]
    split
    · cases f (some node) <;> exact nofun
    · cases alter es key f <;> exact nofun

theorem descend_append (es : Entries) (path path' : List String) (f : Entries → Option Entries) :
    es.descend (path ++ path') f = es.descend path fun es => es.descend path' f := by
  induction path generalizing es with
  | nil => rfl
  | cons key path ih =>
      rw [List.cons_append, descend, descend]
      simp only [ih]

/-- 表の全体を、経路の指す表の項目の関数とみる。経路をたどって加えた項目は、その表に加わる。 -/
def Focus (path : List String) (plug : Entries → Entries) : Prop :=
  ∀ es f, f es ≠ some [] → (plug es).descend path f = (f es).map plug

theorem focus_nil : Focus [] id := fun es f _ => by
  rw [descend, Option.map_id]
  rfl

section Focus

variable {path : List String} {plug : Entries → Entries} {f : Entries → Option Entries}

theorem Focus.descend_concat (h : Focus path plug) (es : Entries) (key : String)
    (f : Entries → Option Entries) :
    (plug es).descend (path ++ [key]) f = (es.descend [key] f).map plug := by
  rw [descend_append, h]
  rw [descend]
  exact alter_ne_nil es key _

theorem Focus.table (h : Focus path plug) (hkey : key ∉ pre.keys) {origin : Origin}
    (horigin : origin ≠ .inline) :
    Focus (path ++ [key]) fun es => plug (pre ++ [(key, .table origin es)]) := by
  intro es f _
  rw [h.descend_concat, descend, alter_last hkey]
  cases origin <;> first | exact absurd rfl horigin | (simp only [descend]; cases f es <;> rfl)

/-- 見出しを書かない表。項目がなければ、まだ現れていない。 -/
def impliedSlot (key : String) : Entries → Entries
  | [] => []
  | es => [(key, .table .implied es)]

theorem Focus.implied (h : Focus path plug) (hkey : key ∉ pre.keys) :
    Focus (path ++ [key]) fun es => plug (pre ++ impliedSlot key es) := by
  intro es f hf
  rw [h.descend_concat, descend]
  cases es with
  | nil =>
      rw [impliedSlot, List.append_nil, alter_fresh hkey]
      simp only [descend]
      rcases hes : f [] with _ | ⟨_ | ⟨e, es⟩⟩
      · rfl
      · exact absurd hes hf
      · rfl
  | cons e es =>
      have hslot : impliedSlot key (e :: es) = [(key, .table .implied (e :: es))] := rfl
      rw [hslot, alter_last hkey]
      simp only [descend]
      rcases hes : f (e :: es) with _ | ⟨_ | ⟨e', es'⟩⟩
      · rfl
      · exact absurd hes hf
      · rfl

/-- 二重の見出しで定めた表の並び。表がなければ、まだ現れていない。 -/
def tablesSlot (key : String) : List Entries → Entries
  | [] => []
  | items => [(key, .tables items)]

theorem tablesSlot_concat (key : String) (items : List Entries) (es : Entries) :
    tablesSlot key (items ++ [es]) = [(key, .tables (items ++ [es]))] := by
  cases items <;> rfl

theorem Focus.repeated (h : Focus path plug) (hkey : key ∉ pre.keys) (done : List Entries) :
    Focus (path ++ [key]) fun es => plug (pre ++ tablesSlot key (done ++ [es])) := by
  intro es f _
  rw [h.descend_concat, descend, tablesSlot_concat, alter_last hkey]
  simp only [descend, List.getLast?_concat, List.dropLast_concat, tablesSlot_concat,
    Option.bind_eq_bind, Option.bind_some]
  cases f es <;> rfl

end Focus

/-! ## 節を加える -/

theorem notMem_keys_concat {k : String} (hes : k ∉ es.keys) (hkey : k ≠ key) :
    k ∉ keys (es ++ [(key, node)]) := by
  rw [keys, List.map_append, List.map_singleton, List.mem_append, List.mem_singleton, not_or]
  exact ⟨hes, hkey⟩

/-- 見出しに続く行は、名が重ならなければ、書いた順に項目になる。 -/
theorem fill_assignments {ms : List (String × Tree)} (hkeys : (ms.map Prod.fst).Nodup)
    (hfresh : ∀ m ∈ ms, m.1 ∉ es.keys) :
    es.fill (assignments ms) = some (es ++ plainEntries ms) := by
  induction ms generalizing es with
  | nil => rw [plainEntries, List.append_nil]; rfl
  | cons m ms ih =>
      obtain ⟨key, t⟩ := m
      rw [List.map_cons, List.nodup_cons] at hkeys
      obtain ⟨hkey, hfresh⟩ := List.forall_mem_cons.mp hfresh
      rw [assignments_cons, plainEntries]
      split
      · exact ih hkeys.2 hfresh
      · have hfresh' : ∀ m ∈ ms, m.1 ∉ keys (es ++ [(key, nodeOf t)]) := fun m hm =>
          notMem_keys_concat (hfresh m hm) fun heq => hkeys.1 (List.mem_map.mpr ⟨m, hm, heq⟩)
        rw [fill, List.foldlM_cons, assign, define, alter_fresh hkey, Option.map_some,
          Option.bind_eq_bind, Option.bind_some]
        exact (ih hkeys.2 hfresh').trans (by rw [List.append_assoc, List.singleton_append])

theorem addSection_concat (es : Entries) (path : List String) (key : String) (r : Bool)
    (body : List Assignment) :
    es.addSection ⟨⟨keyOf (path ++ [key]), r⟩, body⟩ =
      es.descend path fun es => es.alter key (settle ⟨⟨keyOf (path ++ [key]), r⟩, body⟩) := by
  have hpath : (keyOf (path ++ [key])).first :: (keyOf (path ++ [key])).rest = path ++ [key] := by
    cases path <;> rfl
  rw [addSection]
  simp only [hpath, List.dropLast_concat, List.getLast_append_singleton]

/-- 見出しの指す表がまだないとき、節を加えると、その表が末尾に加わる。 -/
theorem Focus.addSection_single {path : List String} {plug : Entries → Entries}
    (h : Focus path plug) (hkey : key ∉ pre.keys) {ms : List (String × Tree)}
    (hms : (ms.map Prod.fst).Nodup) :
    (plug pre).addSection (Block.toSection ⟨path ++ [key], false, ms⟩) =
      some (plug (pre ++ [(key, .table .header (plainEntries ms))])) := by
  rw [Block.toSection, addSection_concat, h _ _ (alter_ne_nil pre key _), alter_fresh hkey, settle,
    fill_assignments hms (fun _ _ => List.not_mem_nil)]
  rfl

theorem Focus.addSection_repeated {path : List String} {plug : Entries → Entries}
    (h : Focus path plug) (hkey : key ∉ pre.keys) {ms : List (String × Tree)}
    (hms : (ms.map Prod.fst).Nodup) (done : List Entries) :
    (plug (pre ++ tablesSlot key done)).addSection (Block.toSection ⟨path ++ [key], true, ms⟩) =
      some (plug (pre ++ tablesSlot key (done ++ [plainEntries ms]))) := by
  rw [Block.toSection, addSection_concat, h _ _ (alter_ne_nil _ key _), tablesSlot_concat]
  have hfill : fill [] (assignments ms) = some (plainEntries ms) :=
    fill_assignments hms fun _ _ => List.not_mem_nil
  cases done with
  | nil =>
      rw [tablesSlot, List.append_nil, alter_fresh hkey, settle, hfill]
      rfl
  | cons es done =>
      have hslot : tablesSlot key (es :: done) = [(key, .tables (es :: done))] := rfl
      rw [hslot, alter_last hkey, settle, hfill]
      rfl

end Entries

open Entries

section Entries

variable {ms : List (String × Tree)}

theorem keys_plainEntries_sublist (ms : List (String × Tree)) :
    (keys (plainEntries ms)).Sublist (ms.map Prod.fst) := by
  induction ms with
  | nil => rw [plainEntries]; exact .slnil
  | cons m ms ih =>
      obtain ⟨key, t⟩ := m
      rw [plainEntries]
      split
      · exact ih.cons key
      · exact ih.cons_cons key

/-- 見出しをつけて書く項目の名が、まだ現れていない。 -/
def Unseen (es : Entries) (ms : List (String × Tree)) : Prop :=
  ∀ m ∈ ms, hasHeading m.2 = true → m.1 ∉ es.keys

theorem unseen_nil (ms : List (String × Tree)) : Unseen [] ms := fun _ _ _ => List.not_mem_nil

theorem Unseen.concat {es : Entries} {key : String} (h : Unseen es ms)
    (hkey : key ∉ ms.map Prod.fst) (node : Node) : Unseen (es ++ [(key, node)]) ms :=
  fun m hm hheading => notMem_keys_concat (h m hm hheading) fun heq =>
    hkey (List.mem_map.mpr ⟨m, hm, heq⟩)

theorem unseen_plainEntries (hkeys : (ms.map Prod.fst).Nodup) : Unseen (plainEntries ms) ms := by
  induction ms with
  | nil => exact nofun
  | cons m ms ih =>
      obtain ⟨key, t⟩ := m
      rw [List.map_cons, List.nodup_cons] at hkeys
      rw [plainEntries]
      refine List.forall_mem_cons.mpr ⟨fun hheading => ?_, fun m hm hheading => ?_⟩
      · rw [if_pos hheading]
        exact fun h => hkeys.1 ((keys_plainEntries_sublist ms).subset h)
      · split
        · exact ih hkeys.2 m hm hheading
        · refine fun h => ih hkeys.2 m hm hheading ((List.mem_cons.mp h).resolve_left fun heq => ?_)
          exact hkeys.1 (List.mem_map.mpr ⟨m, hm, heq⟩)

theorem plainEntries_of_showsHeading (h : showsHeading ms = false) : plainEntries ms = [] := by
  obtain ⟨-, hall⟩ := all_hasHeading_of_showsHeading h
  clear h
  induction ms with
  | nil => rw [plainEntries]
  | cons m ms ih =>
      obtain ⟨key, t⟩ := m
      obtain ⟨ht, hms⟩ := List.forall_mem_cons.mp hall
      rw [plainEntries, if_pos ht, ih hms]

theorem nestedEntries_of_showsHeading (h : showsHeading ms = false) : nestedEntries ms ≠ [] := by
  obtain ⟨hne, hall⟩ := all_hasHeading_of_showsHeading h
  obtain ⟨⟨key, t⟩, ms, rfl⟩ := List.exists_cons_of_ne_nil hne
  rw [nestedEntries, if_pos (hall _ List.mem_cons_self)]
  exact List.cons_ne_nil _ _

end Entries

/-! ## 節の列を加える -/

/-- 経路 `path` で着いた表の項目が `es` であるとき、節 `bs` を順に加えると `es'` になる。 -/
def Grows (path : List String) (bs : List Block) (es es' : Entries) : Prop :=
  ∀ plug, Focus path plug → (bs.map Block.toSection).foldlM addSection (plug es) = some (plug es')

section Grows

variable {path : List String} {bs bs' : List Block} {es es' es'' pre : Entries} {key : String}
  {ms : List (String × Tree)}

theorem Grows.refl (path : List String) (es : Entries) : Grows path [] es es := fun _ _ => rfl

theorem Grows.append (h : Grows path bs es es') (h' : Grows path bs' es' es'') :
    Grows path (bs ++ bs') es es'' := fun plug hplug => by
  rw [List.map_append, List.foldlM_append, h plug hplug]
  exact h' plug hplug

theorem Grows.record (hkey : key ∉ pre.keys) (hms : (ms.map Prod.fst).Nodup)
    (h : Grows (path ++ [key]) bs (plainEntries ms) es) :
    Grows path (⟨path ++ [key], false, ms⟩ :: bs) pre (pre ++ [(key, .table .header es)]) :=
  fun plug hplug => by
    rw [List.map_cons, List.foldlM_cons, hplug.addSection_single hkey hms]
    exact h _ (hplug.table hkey Origin.noConfusion)

/-- 見出しを書かない記録は、途中に現れただけの表になる。 -/
theorem Grows.implied (hkey : key ∉ pre.keys) (hes : es ≠ [])
    (h : Grows (path ++ [key]) bs [] es) :
    Grows path bs pre (pre ++ [(key, .table .implied es)]) := fun plug hplug => by
  have hgrown := h _ (hplug.implied hkey)
  obtain ⟨e, es, rfl⟩ := List.exists_cons_of_ne_nil hes
  rwa [impliedSlot, List.append_nil] at hgrown

theorem Grows.repeated (hkey : key ∉ pre.keys) (hms : (ms.map Prod.fst).Nodup)
    (done : List Entries) (h : Grows (path ++ [key]) bs (plainEntries ms) es) :
    Grows path (⟨path ++ [key], true, ms⟩ :: bs) (pre ++ tablesSlot key done)
      (pre ++ tablesSlot key (done ++ [es])) := fun plug hplug => by
  rw [List.map_cons, List.foldlM_cons, hplug.addSection_repeated hkey hms]
  exact h _ (hplug.repeated hkey done)

/-- 記録の節を順に加えると、見出しを書いても書かなくても、その記録の表が加わる。 -/
theorem Grows.member (hkey : key ∉ pre.keys) (hms : (ms.map Prod.fst).Nodup)
    (h : ∀ {pre : Entries}, Unseen pre ms →
      Grows (path ++ [key]) bs pre (pre ++ nestedEntries ms)) :
    Grows path ((if showsHeading ms then [⟨path ++ [key], false, ms⟩] else []) ++ bs) pre
      (pre ++ [(key, nodeOf (.record ms))]) := by
  rw [nodeOf]
  cases hshows : showsHeading ms with
  | true => exact .record hkey hms (h (unseen_plainEntries hms))
  | false =>
      -- 見出しのない表は、中の表の見出しが初めて通るときに現れる。
      rw [plainEntries_of_showsHeading hshows]
      exact .implied hkey (nestedEntries_of_showsHeading hshows) (h (unseen_nil ms))

end Grows

theorem tablesSlot_itemNodes (key : String) {ts : List Tree}
    (h : hasHeading (.list ts) = true) :
    tablesSlot key ((itemNodes ts).map Node.entries) = [(key, nodeOf (.list ts))] := by
  rw [nodeOf, if_pos h]
  cases ts with
  | nil => cases h
  | cons t ts => rw [itemNodes, List.map_cons]; rfl

mutual
/-- 見出しをつけて書く項目の節を順に加えると、着いた表にその項目が加わる。 -/
theorem grows_nestedBlocks : ∀ (path : List String) (ms : List (String × Tree)),
    (ms.map Prod.fst).Nodup → Tree.RegularMembers ms → ∀ {pre : Entries}, Unseen pre ms →
    Grows path (nestedBlocks path ms) pre (pre ++ nestedEntries ms)
  | path, [], _, _, pre, _ => by
      rw [nestedBlocks, nestedEntries, List.append_nil]
      exact .refl path pre
  | path, (key, .record ms) :: rest, hkeys, hms, pre, hfresh => by
      rw [List.map_cons, List.nodup_cons] at hkeys
      rw [Tree.RegularMembers, Tree.Regular] at hms
      obtain ⟨-, ⟨hnodup, hregular⟩, hrest⟩ := hms
      obtain ⟨hkey, hfresh⟩ := List.forall_mem_cons.mp hfresh
      have hheading : hasHeading (.record ms) = true := rfl
      rw [nestedBlocks, nestedEntries, if_pos hheading, List.append_cons pre]
      have hmember := Grows.member (hkey rfl) hnodup fun hpre =>
        grows_nestedBlocks (path ++ [key]) ms hnodup hregular hpre
      exact hmember.append (grows_nestedBlocks path rest hkeys.2 hrest
        (Unseen.concat hfresh hkeys.1 _))
  | path, (key, .list ts) :: rest, hkeys, hms, pre, hfresh => by
      rw [List.map_cons, List.nodup_cons] at hkeys
      rw [Tree.RegularMembers, Tree.Regular] at hms
      obtain ⟨hkey, hfresh⟩ := List.forall_mem_cons.mp hfresh
      rw [nestedBlocks, nestedEntries]
      cases hheading : hasHeading (.list ts) with
      | false => exact grows_nestedBlocks path rest hkeys.2 hms.2.2 hfresh
      | true =>
          have hrecords : ts.all isRecord = true := by
            rw [hasHeading, Bool.and_eq_true] at hheading
            exact hheading.2
          have hgrown := grows_repeatedBlocks path key ts hrecords hms.2.1.2 (hkey hheading) []
          rw [tablesSlot, List.append_nil, List.nil_append, tablesSlot_itemNodes key hheading]
            at hgrown
          rw [if_pos rfl, if_pos rfl, List.append_cons pre]
          exact hgrown.append (grows_nestedBlocks path rest hkeys.2 hms.2.2
            (Unseen.concat hfresh hkeys.1 _))
  | path, (_, .text _) :: rest, hkeys, hms, pre, hfresh
  | path, (_, .flag _) :: rest, hkeys, hms, pre, hfresh
  | path, (_, .natural _) :: rest, hkeys, hms, pre, hfresh => by
      rw [List.map_cons, List.nodup_cons] at hkeys
      rw [Tree.RegularMembers] at hms
      simp only [nestedBlocks, nestedEntries]
      exact grows_nestedBlocks path rest hkeys.2 hms.2.2 (List.forall_mem_cons.mp hfresh).2

theorem grows_repeatedBlocks : ∀ (path : List String) (key : String) (ts : List Tree),
    ts.all isRecord = true → Tree.RegularItems ts → ∀ {pre : Entries}, key ∉ pre.keys →
    ∀ done : List Entries, Grows path (repeatedBlocks (path ++ [key]) ts)
      (pre ++ tablesSlot key done)
      (pre ++ tablesSlot key (done ++ (itemNodes ts).map Node.entries))
  | path, key, [], _, _, pre, _, done => by
      rw [repeatedBlocks, itemNodes, List.map_nil, List.append_nil]
      exact .refl path _
  | path, key, .record ms :: ts, hrecord, hts, pre, hkey, done => by
      rw [List.all_cons, Bool.and_eq_true] at hrecord
      rw [Tree.RegularItems, Tree.Regular] at hts
      obtain ⟨⟨hnodup, hregular⟩, hts⟩ := hts
      have hms := grows_nestedBlocks (path ++ [key]) ms hnodup hregular (unseen_plainEntries hnodup)
      have hrest := grows_repeatedBlocks path key ts hrecord.2 hts hkey
        (done ++ [plainEntries ms ++ nestedEntries ms])
      rw [List.append_assoc] at hrest
      rw [repeatedBlocks, itemNodes, List.map_cons, nodeOf]
      exact .append (.repeated hkey hnodup done hms) hrest
  | path, key, .text _ :: ts, hrecord, _, _, _, _
  | path, key, .flag _ :: ts, hrecord, _, _, _, _
  | path, key, .natural _ :: ts, hrecord, _, _, _, _
  | path, key, .list _ :: ts, hrecord, _, _, _, _ => by
      cases hrecord
end

/-! ## 全体 -/

theorem lines_ne_some_of_mark (cs : List Char) (ls : List Line) :
    lines ('\ufeff' :: cs) ≠ some ls := by
  have hline : line ('\ufeff' :: cs) = none := rfl
  rw [lines, skipLines_cons (by decide) (by decide)]
  simp only [hline]
  rintro ⟨⟩

/-- 書いた記録は、見出しをつけずに書く項目、見出しをつけて書く項目の順に並ぶ表に読める。 -/
theorem table_write {ms : List (String × Tree)} (h : (Tree.record ms).Regular)
    (hlimit : Tree.heightMembers ms ≤ limit) :
    table (write (.record ms)) = some (plainEntries ms ++ nestedEntries ms) := by
  rw [Tree.Regular] at h
  have hlines := lines_write h.2 hlimit
  have hnested := grows_nestedBlocks [] ms h.1 h.2 (unseen_plainEntries h.1) id focus_nil
  have hfill : fill [] (assignments ms) = some (plainEntries ms) :=
    fill_assignments h.1 fun _ _ => List.not_mem_nil
  rw [table]
  split
  case h_1 heq =>
    rw [heq] at hlines
    exact absurd hlines (lines_ne_some_of_mark _ _)
  case h_2 =>
    simp only [hlines, sections_assignments, sections_blocks, List.append_nil, hfill,
      Option.bind_eq_bind, Option.bind_some]
    exact hnested

end SpecLineage.Toml
