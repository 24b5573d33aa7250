import SpecLineage.Path
import SpecLineage.Text.Blank

/-!
# 文書の場所

文書は正規の形の場所で区別する。同じ文書への二つの参照は同じ場所にならなければならず、循環の検出と文書の
使い回しは場所の一致による。
-/

namespace SpecLineage

/-- 正規の形の場所。 -/
abbrev Location := String

/-- 場所に解けない参照。 -/
structure InvalidReference where
  reference : String
  base : Location
  detail : String
  deriving DecidableEq

def InvalidReference.message (e : InvalidReference) : String :=
  s!"invalid parent reference '{e.reference}' from {e.base}: {e.detail}"

/-- 場所の決めかた。 -/
structure Addressing where
  /-- 与えられた場所を正規の形にする。 -/
  normalize : String → Location
  /-- 場所 `base` の文書に書かれた参照を場所に解く。 -/
  resolve (reference : String) (base : Location) : Except InvalidReference Location

namespace Location

/-- 経路としての正規の形。 -/
def normalize (s : String) : Location := (Path.ofString s).normal.toString

/-- 参照の両端の空白を除き、参照元の文書の置き場所につなぐ。 -/
def resolve (reference : String) (base : Location) : Except InvalidReference Location :=
  let reference := trimBlank reference
  if reference = "" then .error ⟨reference, base, "empty reference"⟩
  else .ok (((Path.ofString base).parent.join (Path.ofString reference)).normal.toString)

end Location

/-- 経路による場所の決めかた。 -/
def Addressing.path : Addressing := ⟨Location.normalize, Location.resolve⟩

end SpecLineage
