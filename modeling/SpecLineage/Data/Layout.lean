import SpecLineage.Data.Shape

/-!
# 型の並べかた

`Layout α` は、型 `α` の値を `Data` に写す仕方と戻す仕方を与える。写して戻せば元の値になることを、
並べかたの一部として求める。三つの書式の読み書きは `Data` の上で一度だけ定める。
-/

namespace SpecLineage

/-- 型 `α` の値の形と、`Data` との行き来。 -/
class Layout (α : Type) where
  shape : Shape
  toData : α → Data
  ofData? : Data → Option α
  ofData?_toData (a : α) : ofData? (toData a) = some a

attribute [simp] Layout.ofData?_toData

namespace Layout

variable {α : Type} [Layout α]

/-- 並びを戻す。一つでも戻せなければ戻せない。 -/
def ofItems? : List Data → Option (List α)
  | [] => some []
  | d :: ds => do return (← ofData? d) :: (← ofItems? ds)

@[simp]
theorem ofItems?_map_toData (as : List α) : ofItems? (as.map toData) = some as := by
  induction as with
  | nil => rfl
  | cons a as ih => simp [ofItems?, ih]

end Layout

instance : Layout String where
  shape := .text
  toData s := .text s
  ofData?
    | .text s => some s
    | _ => none
  ofData?_toData _ := rfl

instance : Layout Bool where
  shape := .flag
  toData b := .flag b
  ofData?
    | .flag b => some b
    | _ => none
  ofData?_toData _ := rfl

instance : Layout UInt32 where
  shape := .natural UInt32.size
  toData n := .natural n.toNat
  ofData?
    | .natural n => some (UInt32.ofNat n)
    | _ => none
  ofData?_toData _ := by simp

instance : Layout UInt64 where
  shape := .natural UInt64.size
  toData n := .natural n.toNat
  ofData?
    | .natural n => some (UInt64.ofNat n)
    | _ => none
  ofData?_toData _ := by simp

instance {α : Type} [Layout α] : Layout (List α) where
  shape := .list (Layout.shape α)
  toData as := .list (as.map Layout.toData)
  ofData?
    | .list ds => Layout.ofItems? ds
    | _ => none
  ofData?_toData as := by simp

/-! ## 記録の項目

記録の項目は、欠けてはならない値、欠けてもよい値、空なら書かない並びのどれかである。 -/

namespace Slot

variable {α : Type} [Layout α]

/-- 欠けてはならない値を置く。 -/
def one (a : α) : Option Data := some (Layout.toData a)

/-- 欠けてはならない値を読む。 -/
def one? (d : Option Data) : Option α := d.bind Layout.ofData?

/-- 欠けてもよい値を置く。 -/
def maybe (a : Option α) : Option Data := a.map Layout.toData

/-- 欠けてもよい値を読む。 -/
def maybe? : Option Data → Option (Option α)
  | none => some none
  | some d => (Layout.ofData? d).map some

/-- 空なら書かない並びを置く。 -/
def many (as : List α) : Option Data := if as.isEmpty then none else one as

/-- 欠けていれば空とみて、並びを読む。 -/
def many? : Option Data → Option (List α)
  | none => some []
  | some d => Layout.ofData? d

@[simp]
theorem one?_one (a : α) : one? (one a) = some a := by simp [one, one?]

@[simp]
theorem maybe?_maybe (a : Option α) : maybe? (maybe a) = some a := by
  cases a <;> simp [maybe, maybe?]

@[simp]
theorem maybe?_one (a : α) : maybe? (one a) = some (some a) := by simp [one, maybe?]

@[simp]
theorem many?_many (as : List α) : many? (many as) = some as := by
  cases as <;> simp [many, many?, one]

@[simp]
theorem many?_one (as : List α) : many? (one as) = some as := by simp [one, many?]

end Slot

namespace Members

/-- 欠けてはならない項目。 -/
def one (key : String) (α : Type) [Layout α] : Members → Members :=
  .cons key .required (Layout.shape α)

/-- 欠けても空でもよい項目。 -/
def maybe (key : String) (α : Type) [Layout α] : Members → Members :=
  .cons key .optional (Layout.shape α)

/-- 欠けていれば既定の値をとる項目。 -/
def default (key : String) (α : Type) [Layout α] : Members → Members :=
  .cons key .defaulted (Layout.shape α)

end Members

end SpecLineage
