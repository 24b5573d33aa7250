import SpecLineage.Proofs.Canonical
import SpecLineage.Proofs.Json.Acceptance

/-!
# 項目の並べ替えと知らない項目

記録の値は、項目の並ぶ順によらず、知らない名札の項目にもよらない。二つの項目を続けて読んだ結果は読む順によらないので、
項目の並びをどう並べ替えても同じである。書き換えた記録が深くに埋もれていても、それを含む値の読みは変わらない。
-/

namespace SpecLineage

/-- 項目の名と形。 -/
def Members.fields : Members → List (String × Shape)
  | .nil => []
  | .cons key _ shape rest => (key, shape) :: rest.fields

namespace Json

/-! ## 一つの項目 -/

section Place

variable {drafts : List Draft} {key key' : String} {m : Member} {n n' : Node}

theorem place_of_unknown (h : draft? key drafts = none) (n : Node) :
    place key n drafts = some drafts := by
  rw [place, h]

theorem place_of_unseen (h : draft? key drafts = some { member := m }) (n : Node) :
    place key n drafts = (meaning m.slot n).map (fill key · drafts) := by
  rw [place, h]

theorem place_of_seen {v : Option Data}
    (h : draft? key drafts = some { member := m, seen := some v }) (n : Node) :
    place key n drafts = none := by
  rw [place, h]

theorem place_congr
    (h : ∀ d ∈ draft? key drafts, meaning d.member.slot n' = meaning d.member.slot n) :
    place key n' drafts = place key n drafts := by
  rcases hdraft : draft? key drafts with _ | ⟨m, _ | v⟩
  · rw [place_of_unknown hdraft, place_of_unknown hdraft]
  · rw [place_of_unseen hdraft, place_of_unseen hdraft, h _ hdraft]
  · rw [place_of_seen hdraft, place_of_seen hdraft]

theorem draft?_fill (key key' : String) (v : Option Data) (drafts : List Draft) :
    draft? key' (fill key v drafts) =
      (draft? key' drafts).map fun d =>
        if d.member.key == key then { d with seen := some v } else d := by
  rw [fill, draft?, List.find?_map, draft?]
  refine congrArg (fun p => Option.map _ (List.find? p drafts)) (funext fun d => ?_)
  rw [Function.comp_apply]
  split <;> rfl

theorem key_of_draft? {d : Draft} (h : draft? key drafts = some d) : d.member.key = key :=
  beq_iff_eq.mp (List.find?_some (p := fun d : Draft => d.member.key == key) h)

theorem draft?_fill_self {d : Draft} (h : draft? key drafts = some d) (v : Option Data) :
    draft? key (fill key v drafts) = some { d with seen := some v } := by
  rw [draft?_fill, h, Option.map_some, if_pos (beq_iff_eq.mpr (key_of_draft? h))]

theorem draft?_fill_of_ne (h : key' ≠ key) (v : Option Data) (drafts : List Draft) :
    draft? key' (fill key v drafts) = draft? key' drafts := by
  rw [draft?_fill]
  cases hdraft : draft? key' drafts with
  | none => rfl
  | some d =>
      have hkey : d.member.key ≠ key := fun hkey => h ((key_of_draft? hdraft).symm.trans hkey)
      rw [Option.map_some, if_neg (mt beq_iff_eq.mp hkey)]

theorem fill_comm (h : key' ≠ key) (v v' : Option Data) (drafts : List Draft) :
    fill key' v' (fill key v drafts) = fill key v (fill key' v' drafts) := by
  rw [fill, fill, fill, fill, List.map_map, List.map_map]
  refine List.map_congr_left fun d _ => ?_
  rw [Function.comp_apply, Function.comp_apply]
  by_cases hkey : d.member.key = key
  · simp only [hkey, beq_self_eq_true, beq_eq_false_iff_ne.mpr h.symm, ↓reduceIte,
      Bool.false_eq_true]
  · simp only [beq_eq_false_iff_ne.mpr hkey, Bool.false_eq_true, ↓reduceIte]
    split <;> simp only [beq_eq_false_iff_ne.mpr hkey, Bool.false_eq_true, ↓reduceIte]

theorem place_place_self {d : Draft} (h : draft? key drafts = some d) (n n' : Node) :
    (place key n drafts).bind (place key n') = none := by
  obtain ⟨m, _ | v⟩ := d
  · rw [place_of_unseen h, Option.bind_eq_none_iff]
    intro drafts' hdrafts
    obtain ⟨v, -, rfl⟩ := Option.map_eq_some_iff.mp hdrafts
    exact place_of_seen (draft?_fill_self h v) n'
  · rw [place_of_seen h]
    rfl

theorem fill_of_unknown (h : draft? key drafts = none) (v : Option Data) :
    fill key v drafts = drafts := by
  refine (List.map_congr_left fun d hd => if_neg ?_).trans (List.map_id drafts)
  exact List.find?_eq_none.mp h d hd

/-- 項目を読むと、その名札の項目だけが埋まる。埋める値は、ほかの名札の項目を先に読んでも変わらない。 -/
theorem exists_place_eq (key : String) (n : Node) (drafts : List Draft) :
    ∃ o : Option (Option Data), place key n drafts = o.map (fill key · drafts) ∧
      ∀ key' v, key ≠ key' →
        place key n (fill key' v drafts) = o.map (fill key · (fill key' v drafts)) := by
  rcases hdraft : draft? key drafts with _ | ⟨m, _ | v⟩
  · refine ⟨some none, ?_, fun key' v hkey => ?_⟩
    · rw [place_of_unknown hdraft, Option.map_some, fill_of_unknown hdraft]
    · have hfill := (draft?_fill_of_ne hkey v drafts).trans hdraft
      rw [place_of_unknown hfill, Option.map_some, fill_of_unknown hfill]
  · exact ⟨_, place_of_unseen hdraft n, fun key' v hkey =>
      place_of_unseen ((draft?_fill_of_ne hkey v drafts).trans hdraft) n⟩
  · exact ⟨none, place_of_seen hdraft n, fun key' v hkey =>
      place_of_seen ((draft?_fill_of_ne hkey v drafts).trans hdraft) n⟩

theorem place_comm (key key' : String) (n n' : Node) (drafts : List Draft) :
    (place key n drafts).bind (place key' n') = (place key' n' drafts).bind (place key n) := by
  by_cases hkey : key' = key
  · subst hkey
    cases hdraft : draft? key' drafts with
    | none =>
        rw [place_of_unknown hdraft, place_of_unknown hdraft, Option.bind_some, Option.bind_some,
          place_of_unknown hdraft, place_of_unknown hdraft]
    | some d => rw [place_place_self hdraft, place_place_self hdraft]
  · obtain ⟨o, ho, hfill⟩ := exists_place_eq key n drafts
    obtain ⟨o', ho', hfill'⟩ := exists_place_eq key' n' drafts
    rw [ho, ho']
    cases o with
    | none => cases o' <;> simp [hfill key' _ (Ne.symm hkey)]
    | some v =>
        cases o' with
        | none => simp [hfill' key _ hkey]
        | some v' => simp [hfill key' _ (Ne.symm hkey), hfill' key _ hkey, fill_comm hkey]

end Place

/-! ## 項目の並び -/

section PlaceAll

variable {drafts drafts' : List Draft} {es es' : List (Quotation × Node)}

theorem placeAll_append (drafts : List Draft) (es es' : List (Quotation × Node)) :
    placeAll drafts (es ++ es') = (placeAll drafts es).bind (placeAll · es') :=
  List.foldlM_append

theorem map_member_placeAll (h : placeAll drafts es = some drafts') :
    drafts'.map Draft.member = drafts.map Draft.member := by
  induction es generalizing drafts with
  | nil => cases h; rfl
  | cons e es ih =>
      rw [placeAll_cons] at h
      obtain ⟨next, hnext, hes⟩ := Option.bind_eq_some_iff.mp h
      obtain ⟨key, -, hplace⟩ := Option.bind_eq_some_iff.mp hnext
      exact (ih hes).trans (map_member_place hplace)

theorem placeAll_swap (e e' : Quotation × Node) (es : List (Quotation × Node))
    (drafts : List Draft) : placeAll drafts (e :: e' :: es) = placeAll drafts (e' :: e :: es) := by
  obtain ⟨q, n⟩ := e
  obtain ⟨q', n'⟩ := e'
  have hcomm : ((q.string?.bind (place · n drafts)).bind fun drafts =>
      q'.string?.bind (place · n' drafts)) =
      (q'.string?.bind (place · n' drafts)).bind fun drafts =>
        q.string?.bind (place · n drafts) := by
    cases q.string? with
    | none => exact (Option.bind_fun_none _).symm
    | some key =>
        cases q'.string? with
        | none => exact Option.bind_fun_none _
        | some key' => exact place_comm key key' n n' drafts
  simp only [placeAll_cons, ← Option.bind_assoc, hcomm]

theorem placeAll_perm (h : es.Perm es') (drafts : List Draft) :
    placeAll drafts es = placeAll drafts es' := by
  induction h generalizing drafts with
  | nil => rfl
  | cons e _ ih =>
      rw [placeAll_cons, placeAll_cons]
      exact congrArg _ (funext ih)
  | swap e e' es => exact placeAll_swap e' e es drafts
  | trans _ _ ih ih' => exact (ih drafts).trans (ih' drafts)

end PlaceAll

/-! ## 書き換え -/

/-- 形 `shape` に沿って読む構文木の、書き換えの一歩。記録の項目を並べ替えるか、知らない名札の項目を一つ加える。書き換える
記録は、値のどの深さにあってもよい。 -/
inductive Node.Edit : Shape → Node → Node → Prop
  /-- 記録の項目を並べ替える。 -/
  | permute {ms : Members} {es es' : List (Quotation × Node)} :
    es.Perm es' → Edit (.record ms) (.record es) (.record es')
  /-- 知らない名札の項目を、どこかに一つ加える。値はどの構文木でもよい。 -/
  | insert {ms : Members} (es : List (Quotation × Node)) {es' : List (Quotation × Node)}
    {key : Quotation} {s : String} {n : Node} :
    key.string? = some s → s ∉ ms.keys →
      Edit (.record ms) (.record (es ++ es')) (.record (es ++ (key, n) :: es'))
  /-- 記録の項目の値を書き換える。 -/
  | member {ms : Members} (es : List (Quotation × Node)) {es' : List (Quotation × Node)}
    {key : Quotation} {s : String} {shape : Shape} {n n' : Node} :
    key.string? = some s → ms.fields.lookup s = some shape → Edit shape n n' →
      Edit (.record ms) (.record (es ++ (key, n) :: es')) (.record (es ++ (key, n') :: es'))
  /-- 並びの値を書き換える。 -/
  | item {item : Shape} (ns : List Node) {ns' : List Node} {n n' : Node} :
    Edit item n n' → Edit (.list item) (.list (ns ++ n :: ns')) (.list (ns ++ n' :: ns'))
  /-- 値だけを並べた記録の値を書き換える。 -/
  | slot {ms : Members} {key : String} {shape : Shape} (ns : List Node) {ns' : List Node}
    {n n' : Node} :
    ms.fields[ns.length]? = some (key, shape) → Edit shape n n' →
      Edit (.record ms) (.list (ns ++ n :: ns')) (.list (ns ++ n' :: ns'))

section Edit

variable {shape : Shape} {ms : Members} {n n' : Node}

theorem Node.Edit.ne_null (h : n.Edit shape n') : n ≠ .null ∧ n' ≠ .null := by
  cases h <;> exact ⟨Node.noConfusion, Node.noConfusion⟩

theorem draft?_of_notMem {drafts : List Draft} {s : String}
    (hdrafts : drafts.map Draft.member = members ms) (hs : s ∉ ms.keys) :
    draft? s drafts = none := by
  refine List.find?_eq_none.mpr fun d hd hkey => hs ?_
  rw [← map_key_members, ← hdrafts, List.map_map]
  exact List.mem_map.mpr ⟨d, hd, beq_iff_eq.mp hkey⟩

theorem find?_member_of_draft? {drafts : List Draft} {key : String} {d : Draft}
    (h : draft? key drafts = some d) :
    (drafts.map Draft.member).find? (·.key == key) = some d.member := by
  rw [List.find?_map]
  exact congrArg (Option.map Draft.member) h

theorem read_of_lookup : ∀ {ms : Members} {s : String} {shape : Shape} {m : Member},
    ms.fields.lookup s = some shape → (members ms).find? (·.key == s) = some m →
      m.read = value shape
  | .nil, _, _, _, h, _ => nomatch h
  | .cons key presence shape' ms, s, shape, m, h, hm => by
      rw [Members.fields, List.lookup_cons] at h
      rw [members, List.find?_cons] at hm
      by_cases hs : key = s
      · simp only [hs, beq_self_eq_true] at h hm
        cases h
        cases hm
        rfl
      · simp only [beq_eq_false_iff_ne.mpr hs, beq_eq_false_iff_ne.mpr (Ne.symm hs)] at h hm
        exact read_of_lookup h hm

theorem read_of_getElem? : ∀ {ms : Members} {i : Nat} {key : String} {shape : Shape},
    ms.fields[i]? = some (key, shape) → ∃ m, (members ms)[i]? = some m ∧ m.read = value shape
  | .nil, _, _, _, h => nomatch h
  | .cons key' presence shape' ms, 0, key, shape, h => by
      cases h
      exact ⟨_, by rw [members]; rfl, rfl⟩
  | .cons key' presence shape' ms, i + 1, key, shape, h => by
      obtain ⟨m, hm, hread⟩ := read_of_getElem? (show ms.fields[i]? = some (key, shape) from h)
      exact ⟨m, by rw [members]; exact hm, hread⟩

theorem meaning_slot_congr {m : Member} (hm : Local m.read) (h : n.Edit shape n')
    (hread : m.read = value shape) (heq : meaning (value shape) n' = meaning (value shape) n) :
    meaning m.slot n' = meaning m.slot n := by
  obtain ⟨hn, hn'⟩ := h.ne_null
  rw [(means_slot hm hn).meaning_eq, (means_slot hm hn').meaning_eq, hread, heq]

theorem meaning_record (ms : Members) (es : List (Quotation × Node)) :
    meaning (value (.record ms)) (.record es) = recordMeaning (members ms) es := by
  rw [value, (means_record (local_members ms) es).meaning_eq]

theorem meaning_row (ms : Members) (ns : List Node) :
    meaning (value (.record ms)) (.list ns) = (rowMeaning (members ms) ns).map .record := by
  rw [value, (means_row (local_members ms) ns).meaning_eq]

theorem meaning_list (item : Shape) (ns : List Node) :
    meaning (value (.list item)) (.list ns) = (ns.mapM (meaning (value item))).map .list := by
  rw [value, (means_list (local_value item) ns).meaning_eq]

/-- 一つの項目の読みが変わらなければ、記録の値も変わらない。 -/
theorem recordMeaning_congr {ms : List Member} {es es₁ es₂ : List (Quotation × Node)}
    (h : ∀ drafts : List Draft, drafts.map Draft.member = ms →
      placeAll drafts es₁ = placeAll drafts es₂) :
    recordMeaning ms (es ++ es₁) = recordMeaning ms (es ++ es₂) := by
  rw [recordMeaning, recordMeaning, placeAll_append, placeAll_append]
  cases hdrafts : placeAll (fresh ms) es with
  | none => rfl
  | some drafts =>
      rw [Option.bind_some, Option.bind_some, h]
      exact (map_member_placeAll hdrafts).trans (map_member_fresh ms)

theorem rowMeaning_congr {m : Member} (h : meaning m.slot n' = meaning m.slot n) :
    ∀ {ms : List Member} {ns ns' : List Node}, ms[ns.length]? = some m →
      rowMeaning ms (ns ++ n' :: ns') = rowMeaning ms (ns ++ n :: ns')
  | _ :: ms, [], ns', hm => by
      cases hm
      rw [List.nil_append, List.nil_append, rowMeaning, rowMeaning, h]
  | m' :: ms, n₀ :: ns, ns', hm => by
      rw [List.cons_append, List.cons_append, rowMeaning, rowMeaning,
        rowMeaning_congr h (show ms[ns.length]? = some m from hm)]

/-- 書き換えの一歩は、読みを変えない。 -/
theorem Node.Edit.meaning_eq (h : n.Edit shape n') :
    meaning (value shape) n' = meaning (value shape) n := by
  induction h with
  | permute hes =>
      rw [meaning_record, meaning_record, recordMeaning, recordMeaning, placeAll_perm hes]
  | @insert ms es es' key s n hkey hs =>
      rw [meaning_record, meaning_record]
      refine recordMeaning_congr fun drafts hdrafts => ?_
      rw [placeAll_cons, hkey, Option.bind_some, place_of_unknown (draft?_of_notMem hdrafts hs),
        Option.bind_some]
  | @member ms es es' key s shape n n' hkey hlookup hedit ih =>
      rw [meaning_record, meaning_record]
      refine recordMeaning_congr fun drafts hdrafts => ?_
      rw [placeAll_cons, placeAll_cons, hkey, Option.bind_some, Option.bind_some, place_congr]
      intro d hd
      have hfind := find?_member_of_draft? hd
      rw [hdrafts] at hfind
      exact meaning_slot_congr (local_members ms _ (List.mem_of_find?_eq_some hfind)) hedit
        (read_of_lookup hlookup hfind) ih
  | @item item ns ns' n n' hedit ih =>
      rw [meaning_list, meaning_list, List.mapM_append, List.mapM_append, List.mapM_cons,
        List.mapM_cons, ih]
  | @slot ms key shape ns ns' n n' hslot hedit ih =>
      obtain ⟨m, hm, hread⟩ := read_of_getElem? hslot
      rw [meaning_row, meaning_row]
      have hlocal := local_members ms m (List.mem_of_getElem? hm)
      rw [rowMeaning_congr (meaning_slot_congr hlocal hedit hread ih) hm]

theorem meaning_eq_of_edits (h : Relation.ReflTransGen (Node.Edit shape) n n') :
    meaning (value shape) n' = meaning (value shape) n := by
  induction h with
  | refl => rfl
  | tail _ hedit ih => exact hedit.meaning_eq.trans ih

/-- 書き換えた構文木をどう書いても、読んだ値は変わらない。 -/
theorem read_eq_ok_of_edits {s s' : String} {d : Data} (hs : n.Spells s)
    (hedits : Relation.ReflTransGen (Node.Edit shape) n n') (hs' : n'.Spells s')
    (h : read shape s = .ok d) : read shape s' = .ok d := by
  have hread : (read shape s').toOption = (read shape s).toOption := by
    rw [hs.toOption_read, hs'.toOption_read, meaning_eq_of_edits hedits]
  rw [h] at hread
  cases hd : read shape s' with
  | error fault => rw [hd] at hread; cases hread
  | ok d' => rw [hd] at hread; cases hread; rfl

end Edit

end Json

/-! ## 文書 -/

namespace Document

theorem parse_json_eq_ok_iff {text : String} {d : Document} :
    parse .json text = .ok d ↔
      ∃ data, Json.read (Layout.shape Document) text = .ok data ∧
        Layout.ofData? data = some d := by
  rw [parse]
  cases Json.read (Layout.shape Document) text with
  | error fault => simp
  | ok data =>
      cases hd : (Layout.ofData? data : Option Document) with
      | none => simp [hd]
      | some d' => simp [hd]

/-- 文書に読める文字列は JSON の書きかたであり、その記録の項目を並べ替え、知らない名札の項目を加え、空白を変えた文字列も、
どれも同じ文書に読める。 -/
theorem parse_json_rearranged {text : String} {d : Document} (h : parse .json text = .ok d) :
    (∃ n, Json.Node.Spells n text) ∧
      ∀ (n n' : Json.Node) (text' : String), n.Spells text →
        Relation.ReflTransGen (Json.Node.Edit (Layout.shape Document)) n n' → n'.Spells text' →
          parse .json text' = .ok d := by
  obtain ⟨data, hread, hdata⟩ := parse_json_eq_ok_iff.mp h
  refine ⟨Json.exists_spells_of_read_eq_ok hread, fun n n' text' hn hedits hn' => ?_⟩
  exact parse_json_eq_ok_iff.mpr ⟨data, Json.read_eq_ok_of_edits hn hedits hn' hread, hdata⟩

section Rule

open Json

def metadataEntry : Quotation × Node :=
  (.plain "metadata" (by decide),
    .record [(.plain "id" (by decide), .text (.plain "a" (by decide)))])

def idEntry : Quotation × Node := (.plain "id" (by decide), .text (.plain "r" (by decide)))

def nameEntry : Quotation × Node := (.plain "name" (by decide), .text (.plain "n" (by decide)))

/-- 業務規則が知らない項目。 -/
def unknownEntry : Quotation × Node := (.plain "x" (by decide), .list [.null, .record []])

/-- 項目 `es` の業務規則を一つ持つ並び。 -/
def rulesEntry (es : List (Quotation × Node)) : Quotation × Node :=
  (.plain "business_rules" (by decide), .list [.record es])

def ruleDocument : Document :=
  { metadata := { id := "a" }, businessRules := [{ id := "r", name := "n" }] }

/-- 文書と業務規則の項目を入れ替え、業務規則に知らない項目を加え、空白を変える。 -/
theorem parse_json_rearranged_rule :
    parse .json ("\x7b\"metadata\":\x7b\"id\":\"a\"\x7d," ++
        "\"business_rules\":[\x7b\"id\":\"r\",\"name\":\"n\"\x7d]\x7d") = .ok ruleDocument ∧
      parse .json (" \x7b\"business_rules\" : [\x7b\"x\":[null, \x7b\x7d], " ++
        "\"name\":\"n\",\"id\":\"r\"\x7d],\n\"metadata\":\x7b\"id\":\"a\"\x7d\x7d") =
          .ok ruleDocument := by
  have hswap : Node.Edit (Layout.shape Document)
      (.record [metadataEntry, rulesEntry [idEntry, nameEntry]])
      (.record [rulesEntry [idEntry, nameEntry], metadataEntry]) := .permute (.swap _ _ _)
  have hrule : Node.Edit (Layout.shape Document)
      (.record [rulesEntry [idEntry, nameEntry], metadataEntry])
      (.record [rulesEntry [nameEntry, idEntry], metadataEntry]) :=
    .member [] rfl rfl (.item [] (.permute (.swap _ _ _)))
  have hunknown : Node.Edit (Layout.shape Document)
      (.record [rulesEntry [nameEntry, idEntry], metadataEntry])
      (.record [rulesEntry [unknownEntry, nameEntry, idEntry], metadataEntry]) :=
    .member [] rfl rfl (.item [] (.insert [] rfl (by decide)))
  have h := parse_write .compact ruleDocument
  exact ⟨h, (parse_json_rearranged h).2 _ _ _ (by decide)
    (((Relation.ReflTransGen.single hswap).tail hrule).tail hunknown) (by decide)⟩

end Rule

/-- 代用対の片方だけを書いた名札。 -/
def unpairedKey : Json.Quotation := [.unit 'd' '8' '0' '0' (by decide)]

/-- 代用対の片方だけを書いた名札は、文字列を表さないので、どの項目の名でもない。それでも読み飛ばされず、文書は読めない。 -/
theorem parse_json_unpaired_key :
    parse .json "\x7b\x7d" = .ok {} ∧ Json.Node.Spells (.record []) "\x7b\x7d" ∧
      unpairedKey.string? = none ∧
      Json.Node.Spells (.record [(unpairedKey, .number (.digit '0' (by decide)))])
        "\x7b\"\\ud800\":0\x7d" ∧
      parse .json "\x7b\"\\ud800\":0\x7d" = .error (.json .malformed) :=
  ⟨by decide +kernel, by decide, by decide, by decide, by decide +kernel⟩

end Document

end SpecLineage
