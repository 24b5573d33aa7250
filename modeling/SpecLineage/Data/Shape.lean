/-!
# 文書の形と値

文書を作る記録の種類は十余りあるが、どれも文字列、真偽、自然数、並び、記録の組み合わせである。
形 `Shape` はその組み合わせかたを、値 `Data` は形に沿った中身を表す。記録の値は項目を形の順に並べたもので、
名札をもたない。欠けた項目は `none` とする。
-/

namespace SpecLineage

/-- 項目が欠けたとき、空のときの扱い。 -/
inductive Presence where
  /-- 欠けると読めない。 -/
  | required
  /-- 欠けてもよく、空の値は欠けたものとして読む。 -/
  | optional
  /-- 欠けてもよいが、書くなら値をもつ。 -/
  | defaulted
  deriving DecidableEq

mutual
/-- 値の形。 -/
inductive Shape where
  | text
  | flag
  /-- 上限 `bound` より小さい自然数。 -/
  | natural (bound : Nat)
  /-- 名の一つ。値としては文字列で持つ。 -/
  | choice (names : List String)
  | list (item : Shape)
  | record (members : Members)

/-- 記録の項目の並び。順は書き出すときの順である。 -/
inductive Members where
  | nil
  | cons (key : String) (presence : Presence) (shape : Shape) (rest : Members)
end

/-- 形に沿った値。 -/
inductive Data where
  | text (s : String)
  | flag (b : Bool)
  | natural (n : Nat)
  | list (items : List Data)
  /-- 項目の値を形の順に並べたもの。 -/
  | record (slots : List (Option Data))

/-- 項目の名。 -/
def Members.keys : Members → List String
  | .nil => []
  | .cons key _ _ rest => key :: rest.keys

end SpecLineage
