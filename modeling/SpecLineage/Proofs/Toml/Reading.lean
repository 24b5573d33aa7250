import SpecLineage.Proofs.Sequence
import SpecLineage.Proofs.Toml.Section
import SpecLineage.Toml.Read

/-!
# 書いた TOML の読み

形に沿う値に名札をつけた木は、書いて読んだ表から元の値に読める。見出しをつけて書く項目は表の終わりに移るが、項目は名で
引くので、順の違いは読みを変えない。
-/

namespace SpecLineage.Toml

/-! ## 項目を引く -/

theorem lookup_entries {ms : List (String × Tree)} (hkeys : (ms.map Prod.fst).Nodup)
    (key : String) :
    (plainEntries ms ++ nestedEntries ms).lookup key = (ms.lookup key).map nodeOf := by
  induction ms with
  | nil => rw [plainEntries, nestedEntries]; rfl
  | cons m ms ih =>
      obtain ⟨k, t⟩ := m
      rw [List.map_cons, List.nodup_cons] at hkeys
      have hms := ih hkeys.2
      rw [List.lookup_append] at hms ⊢
      rw [plainEntries, nestedEntries, List.lookup_cons]
      by_cases hk : key = k
      · subst hk
        have hplain : (plainEntries ms).lookup key = none :=
          List.lookup_of_notMem fun h => hkeys.1 ((keys_plainEntries_sublist ms).subset h)
        rw [beq_self_eq_true]
        split
        · rw [hplain, List.lookup_cons_self, Option.none_or]
          rfl
        · rw [List.lookup_cons_self, Option.some_or]
          rfl
      · rw [beq_false_of_ne hk]
        split
        · rwa [List.lookup_cons, beq_false_of_ne hk]
        · rwa [List.lookup_cons, beq_false_of_ne hk]

/-! ## 形に沿った読み -/

theorem typed_table (shape : Shape) (origin origin' : Origin) (es : Entries) :
    typed shape (.table origin es) = typed shape (.table origin' es) := by
  cases shape with
  | choice names => rcases es with _ | ⟨⟨s, node⟩, _ | ⟨e, es⟩⟩ <;> rfl
  | _ => rfl

theorem itemNodes_eq_map (ts : List Tree) : itemNodes ts = ts.map nodeOf := by
  induction ts with
  | nil => rw [itemNodes, List.map_nil]
  | cons t ts ih => rw [itemNodes, List.map_cons, ih]

theorem typed_list {item : Shape} {ds : List Data}
    (h : ∀ d ∈ ds, typed item (nodeOf (item.tree d)) = some d) :
    typed (.list item) (nodeOf (.list (ds.map item.tree))) = some (.list ds) := by
  rw [nodeOf, itemNodes_eq_map]
  split
  case isFalse =>
    rw [typed, list, List.map_map, List.mapM_map_eq_pure (g := nodeOf ∘ item.tree) h]
    rfl
  case isTrue hheading =>
    -- 見出しをつけて書いた並びは、表の項目の並びとして読まれる。
    rw [hasHeading, Bool.and_eq_true, List.all_map, List.all_eq_true] at hheading
    have hentries : ∀ d ∈ ds,
        typed item (.table .header (nodeOf (item.tree d)).entries) = some d := by
      intro d hd
      have hread := h d hd
      have hrecord : isRecord (item.tree d) = true := hheading.2 d hd
      cases ht : item.tree d with
      | record ms =>
          rw [ht, nodeOf] at hread
          rw [nodeOf, ← hread]
          exact typed_table item _ _ _
      | _ =>
          rw [ht] at hrecord
          cases hrecord
    rw [typed, list, List.map_map, List.map_map,
      List.mapM_map_eq_pure (g := (Node.entries ∘ nodeOf) ∘ item.tree) hentries]
    rfl

mutual
theorem typed_nodeOf : ∀ (shape : Shape) {d : Data}, Fits shape d →
    typed shape (nodeOf (shape.tree d)) = some d
  | .text, _, .text s => by rw [Shape.tree, nodeOf, typed]
  | .flag, _, .flag b => by rw [Shape.tree, nodeOf, typed]
  | .natural bound, _, .natural hn _ => by
      rw [Shape.tree, nodeOf, typed, if_pos (by omega), Int.toNat_natCast]
  | .choice names, _, .choice hs => by
      rw [Shape.tree, nodeOf, typed, choice, if_pos hs]
  | .list item, _, .list hds => by
      rw [Shape.tree]
      exact typed_list fun d hd => typed_nodeOf item (hds d hd)
  | .record ms, .record slots, .record hkeys hslots => by
      have hnodup : ((ms.trees slots).map Prod.fst).Nodup :=
        hkeys.sublist (ms.map_fst_trees_sublist slots)
      rw [Shape.tree, nodeOf, typed, record, entries,
        mapM_members ms hslots hkeys fun key _ => lookup_entries hnodup key]
      rfl

theorem mapM_members : ∀ (ms : Members) {slots : List (Option Data)}, FitsAll ms slots →
    ms.keys.Nodup → ∀ {es : Entries},
    (∀ key ∈ ms.keys, es.get? key = ((ms.trees slots).lookup key).map nodeOf) →
    (members ms).mapM (fun m => m.slot (es.get? m.key)) = some slots
  | .nil, _, .nil, _, es, _ => by rw [members]; rfl
  | .cons key presence shape ms, _, .absent hpresence hslots, hkeys, es, hes => by
      rw [Members.keys, List.nodup_cons] at hkeys
      rw [Members.keys, Members.trees] at hes
      obtain ⟨hkey, hms⟩ := List.forall_mem_cons.mp hes
      rw [List.lookup_of_notMem fun h => hkeys.1 ((ms.map_fst_trees_sublist _).subset h)] at hkey
      have hslot : Member.slot ⟨key, presence, typed shape⟩ none = some none := if_neg hpresence
      rw [members, List.mapM_cons, mapM_members ms hslots hkeys.2 hms]
      simp only [hkey, Option.map_none, hslot]
      rfl
  | .cons key presence shape ms, some d :: slots, .present hd hslots, hkeys, es, hes => by
      rw [Members.keys, List.nodup_cons] at hkeys
      rw [Members.keys, Members.trees] at hes
      obtain ⟨hkey, hms⟩ := List.forall_mem_cons.mp hes
      have hms' : ∀ k ∈ ms.keys, es.get? k = ((ms.trees slots).lookup k).map nodeOf := by
        intro k hk
        have hne : k ≠ key := by
          rintro rfl
          exact hkeys.1 hk
        rw [hms k hk, List.lookup_cons, beq_false_of_ne hne]
      rw [List.lookup_cons_self] at hkey
      rw [members, List.mapM_cons, mapM_members ms hslots hkeys.2 hms']
      simp only [hkey, Option.map_some, Member.slot, typed_nodeOf shape hd]
      rfl
end

/-- 形に沿う記録は、重ねる深さが名の数の限りに収まれば、書いた文字列から読み戻せる。 -/
theorem read_write {ms : Members} {d : Data} (h : Fits (.record ms) d)
    (hshape : ms.isRegular = true) (hlimit : ms.height ≤ limit) :
    read (.record ms) (write (Shape.tree (.record ms) d)) = some d := by
  have hregular := regular_tree (.record ms) h (by rwa [Shape.isRegular])
  have htyped := typed_nodeOf (.record ms) h
  cases h with
  | @record _ slots _ hslots =>
      rw [Shape.tree] at hregular htyped ⊢
      rw [nodeOf, typed_table _ _ .header] at htyped
      rw [read, table_write hregular (Nat.le_trans (heightMembers_trees_le ms hslots) hlimit)]
      exact htyped

end SpecLineage.Toml
