import SpecLineage.Data.Shape

/-!
# 名札つきの木

`Tree` は書き出す直前の姿である。記録の項目は名札をもち、欠けた項目は含まない。どの書式も `Tree` から
文字列を作る。
-/

namespace SpecLineage

/-- 名札つきの木。 -/
inductive Tree where
  | text (s : String)
  | flag (b : Bool)
  | natural (n : Nat)
  | list (items : List Tree)
  | record (members : List (String × Tree))

mutual
/-- 値に名札をつける。形に合わない並びと記録は空になる。 -/
def Shape.tree : Shape → Data → Tree
  | _, .text s => .text s
  | _, .flag b => .flag b
  | _, .natural n => .natural n
  | .list item, .list ds => .list (ds.map item.tree)
  | _, .list _ => .list []
  | .record members, .record slots => .record (members.trees slots)
  | _, .record _ => .record []

/-- 書くべき項目に名札をつけて並べる。 -/
def Members.trees : Members → List (Option Data) → List (String × Tree)
  | .nil, _ => []
  | .cons _ _ _ _, [] => []
  | .cons _ _ _ rest, none :: slots => rest.trees slots
  | .cons key _ shape rest, some d :: slots => (key, shape.tree d) :: rest.trees slots
end

end SpecLineage
