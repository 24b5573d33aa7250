import Mathlib.Data.List.Nodup
import SpecLineage.Proofs.Data.Fitting
import SpecLineage.Toml.Write

/-!
# どの書式でも書ける形

YAML と TOML では、名札や数や並びに書けないものがある。名札が小文字と下線だけの短い名で、数が 64 桁の符号つき二進数に
収まり、並びの値が並びでない形なら、その形に沿う値に名札をつけた木は、どちらの書式でも書ける。
-/

namespace SpecLineage

/-- 引用符なしで書ける名か。 -/
def isSimpleName (name : String) : Bool :=
  !name.toList.isEmpty && name.toList.length ≤ 256 &&
    name.toList.all fun c => c.isLower || c == '_'

/-! ## 形 -/

/-- 並びの形か。 -/
def Shape.isList : Shape → Bool
  | .list _ => true
  | _ => false

mutual
/-- どの書式でも書ける形か。 -/
def Shape.isRegular : Shape → Bool
  | .text | .flag | .choice _ => true
  | .natural bound => bound ≤ 0x8000000000000000
  | .list item => !item.isList && item.isRegular
  | .record ms => ms.isRegular

def Members.isRegular : Members → Bool
  | .nil => true
  | .cons key _ shape rest => isSimpleName key && shape.isRegular && rest.isRegular
end

mutual
/-- 記録を重ねる深さ。 -/
def Shape.height : Shape → Nat
  | .list item => item.height
  | .record ms => ms.height + 1
  | _ => 0

def Members.height : Members → Nat
  | .nil => 0
  | .cons _ _ shape rest => max shape.height rest.height
end

/-! ## 木 -/

namespace Tree

/-- 括弧を持たない値か。 -/
def isScalar : Tree → Bool
  | .text _ | .flag _ | .natural _ => true
  | _ => false

mutual
/-- どの書式でも書ける木。並びの値は、どれも括弧を持たないか、どれも記録である。 -/
def Regular : Tree → Prop
  | .text _ | .flag _ => True
  | .natural n => n < 0x8000000000000000
  | .list ts => (ts.all isScalar = true ∨ ts.all Toml.isRecord = true) ∧ RegularItems ts
  | .record ms => (ms.map Prod.fst).Nodup ∧ RegularMembers ms

def RegularItems : List Tree → Prop
  | [] => True
  | t :: ts => t.Regular ∧ RegularItems ts

def RegularMembers : List (String × Tree) → Prop
  | [] => True
  | (key, t) :: ms => isSimpleName key = true ∧ t.Regular ∧ RegularMembers ms
end

mutual
/-- 記録を重ねる深さ。 -/
def height : Tree → Nat
  | .list ts => heightItems ts
  | .record ms => heightMembers ms + 1
  | _ => 0

def heightItems : List Tree → Nat
  | [] => 0
  | t :: ts => max t.height (heightItems ts)

def heightMembers : List (String × Tree) → Nat
  | [] => 0
  | (_, t) :: ms => max t.height (heightMembers ms)
end

end Tree

/-! ## 形に沿う値の木 -/

theorem Members.map_fst_trees_sublist : ∀ (ms : Members) (slots : List (Option Data)),
    ((ms.trees slots).map Prod.fst).Sublist ms.keys
  | .nil, _ => by rw [trees]; exact .slnil
  | .cons _ _ _ _, [] => by rw [trees]; exact List.nil_sublist _
  | .cons key _ _ rest, none :: slots => by
      rw [trees, keys]; exact (map_fst_trees_sublist rest slots).cons key
  | .cons key _ _ rest, some _ :: slots => by
      rw [trees, keys]; exact (map_fst_trees_sublist rest slots).cons_cons key

/-- 並びでない形に沿う値の木は、形ごとに種類が揃う。 -/
theorem all_isScalar_or_isRecord {item : Shape} {ds : List Data} (hds : ∀ d ∈ ds, Fits item d)
    (hitem : item.isList = false) :
    (ds.map item.tree).all Tree.isScalar = true ∨ (ds.map item.tree).all Toml.isRecord = true := by
  simp only [List.all_map, List.all_eq_true, Function.comp_apply]
  cases item with
  | list => cases hitem
  | record =>
      refine .inr fun d hd => ?_
      cases hds d hd
      rw [Shape.tree]
      rfl
  | _ =>
      refine .inl fun d hd => ?_
      cases hds d hd
      rw [Shape.tree]
      rfl

theorem regularItems_iff {ts : List Tree} : Tree.RegularItems ts ↔ ∀ t ∈ ts, t.Regular := by
  induction ts with
  | nil => simp [Tree.RegularItems]
  | cons t ts ih => rw [Tree.RegularItems, ih, List.forall_mem_cons]

mutual
theorem regular_tree : ∀ (shape : Shape) {d : Data}, Fits shape d → shape.isRegular = true →
    (shape.tree d).Regular
  | .text, _, .text s, _ => by simp [Shape.tree, Tree.Regular]
  | .flag, _, .flag b, _ => by simp [Shape.tree, Tree.Regular]
  | .natural bound, _, .natural hn _, h => by
      rw [Shape.isRegular, decide_eq_true_iff] at h
      rw [Shape.tree, Tree.Regular]
      exact Nat.lt_of_lt_of_le hn h
  | .choice names, _, .choice hs, _ => by simp [Shape.tree, Tree.Regular]
  | .list item, .list ds, .list hds, h => by
      rw [Shape.isRegular, Bool.and_eq_true, Bool.not_eq_true'] at h
      rw [Shape.tree, Tree.Regular, regularItems_iff]
      refine ⟨all_isScalar_or_isRecord hds h.1, fun t ht => ?_⟩
      obtain ⟨d, hd, rfl⟩ := List.mem_map.mp ht
      exact regular_tree item (hds d hd) h.2
  | .record ms, _, .record hkeys hslots, h => by
      rw [Shape.isRegular] at h
      rw [Shape.tree, Tree.Regular]
      exact ⟨hkeys.sublist (ms.map_fst_trees_sublist _), regularMembers_trees ms hslots h⟩

theorem regularMembers_trees : ∀ (ms : Members) {slots : List (Option Data)}, FitsAll ms slots →
    ms.isRegular = true → Tree.RegularMembers (ms.trees slots)
  | .nil, _, .nil, _ => by simp [Members.trees, Tree.RegularMembers]
  | .cons key presence shape ms, _, .absent _ hslots, h => by
      rw [Members.isRegular, Bool.and_eq_true] at h
      rw [Members.trees]
      exact regularMembers_trees ms hslots h.2
  | .cons key presence shape ms, _, .present hd hslots, h => by
      rw [Members.isRegular, Bool.and_eq_true, Bool.and_eq_true] at h
      rw [Members.trees, Tree.RegularMembers]
      exact ⟨h.1.1, regular_tree shape hd h.1.2, regularMembers_trees ms hslots h.2⟩
end

theorem heightItems_le {ts : List Tree} {n : Nat} (h : ∀ t ∈ ts, t.height ≤ n) :
    Tree.heightItems ts ≤ n := by
  induction ts with
  | nil => exact Nat.zero_le n
  | cons t ts ih =>
      obtain ⟨ht, hts⟩ := List.forall_mem_cons.mp h
      rw [Tree.heightItems]
      exact Nat.max_le.mpr ⟨ht, ih hts⟩

mutual
theorem height_tree_le : ∀ (shape : Shape) {d : Data}, Fits shape d →
    (shape.tree d).height ≤ shape.height
  | .text, _, .text s => by simp [Shape.tree, Tree.height]
  | .flag, _, .flag b => by simp [Shape.tree, Tree.height]
  | .natural bound, _, .natural _ _ => by simp [Shape.tree, Tree.height]
  | .choice names, _, .choice _ => by simp [Shape.tree, Tree.height]
  | .list item, _, .list hds => by
      rw [Shape.tree, Tree.height, Shape.height]
      refine heightItems_le fun t ht => ?_
      obtain ⟨d, hd, rfl⟩ := List.mem_map.mp ht
      exact height_tree_le item (hds d hd)
  | .record ms, _, .record _ hslots => by
      rw [Shape.tree, Tree.height, Shape.height]
      exact Nat.succ_le_succ (heightMembers_trees_le ms hslots)

theorem heightMembers_trees_le : ∀ (ms : Members) {slots : List (Option Data)}, FitsAll ms slots →
    Tree.heightMembers (ms.trees slots) ≤ ms.height
  | .nil, _, .nil => by simp [Members.trees, Tree.heightMembers]
  | .cons key presence shape ms, _, .absent _ hslots => by
      rw [Members.trees, Members.height]
      exact Nat.le_trans (heightMembers_trees_le ms hslots) (Nat.le_max_right _ _)
  | .cons key presence shape ms, _, .present hd hslots => by
      rw [Members.trees, Tree.heightMembers, Members.height]
      have hvalue := height_tree_le shape hd
      have hrest := heightMembers_trees_le ms hslots
      omega
end

/-! ## 名 -/

theorem isAlphanum_of_isLower {c : Char} (h : c.isLower = true) : c.isAlphanum = true := by
  change (c.isUpper || c.isLower || c.isDigit) = true
  rw [h, Bool.or_true, Bool.true_or]

/-- 引用符なしで書ける名は、空でない短い文字の列である。 -/
theorem isSimpleName_iff {name : String} : isSimpleName name = true ↔
    name.toList ≠ [] ∧ name.toList.length ≤ 256 ∧
      ∀ c ∈ name.toList, c.isLower = true ∨ c = '_' := by
  simp only [isSimpleName, Bool.and_eq_true, Bool.not_eq_true', List.isEmpty_eq_false_iff,
    decide_eq_true_iff, List.all_eq_true, Bool.or_eq_true, beq_iff_eq, and_assoc]

end SpecLineage
