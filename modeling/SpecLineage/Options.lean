import SpecLineage.Data.Layout

/-!
# 解決の設定

親をたどる深さ、循環の扱い、同じ識別子の実体の重ねかた、整合の検査、誤りの数の上限を定める。
-/

namespace SpecLineage

/-! ## 重ねかた -/

/-- 同じ識別子を持つ実体の重ねかた。 -/
inductive Strategy where
  /-- 上の実体で置き換える。 -/
  | override
  /-- 項目ごとに重ねる。 -/
  | merge
  /-- 別の実体として末尾に加える。 -/
  | append
  deriving DecidableEq

/-- 知らない重ねかたの名。名は小文字で持つ。 -/
structure UnknownStrategy where
  name : String
  deriving DecidableEq

def UnknownStrategy.message (e : UnknownStrategy) : String :=
  s!"unknown merge strategy '{e.name}' (expected override, merge or append)"

namespace Strategy

def name : Strategy → String
  | override => "override"
  | merge => "merge"
  | append => "append"

def all : List Strategy := [override, merge, append]

/-- 名から重ねかたを引く。ASCII の大文字と小文字を区別しない。 -/
def ofName (s : String) : Except UnknownStrategy Strategy :=
  match all.find? (fun strategy => strategy.name == s.toLower) with
  | some strategy => .ok strategy
  | none => .error ⟨s.toLower⟩

instance : Layout Strategy where
  shape := .choice (all.map name)
  toData strategy := .text strategy.name
  ofData?
    | .text s => all.find? (fun strategy => strategy.name == s)
    | _ => none
  ofData?_toData strategy := by cases strategy <;> rfl

end Strategy

/-! ## 設定 -/

/-- 解決の設定。 -/
structure Options where
  /-- この深さより深い枝はたどらない。 -/
  maxDepth : Nat := 10
  /-- 循環を断たずにたどるか。たどるときは `maxDepth` だけが止める。 -/
  allowCircular : Bool := false
  strategy : Strategy := .merge
  /-- 重ねた文書の整合を検査するか。 -/
  checkConsistency : Bool := true
  /-- 書き留める誤りの数の上限。`none` は上限がないことを表す。 -/
  maxErrors : Option Nat := none
  deriving DecidableEq

end SpecLineage
