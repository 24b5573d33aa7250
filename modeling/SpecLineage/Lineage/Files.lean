import SpecLineage.Lineage.Resolve

/-!
# 書類からの読み込み

場所を経路とみて書類から文書を読み込む。書式は経路の拡張子で決める。
-/

namespace SpecLineage

/-- 書類の中身を取り出す仕方。書類でない経路には答えがない。 -/
abbrev ReadFile := String → Option ByteArray

/-- 中身が UTF-8 でないことの説明。 -/
def notText : String := "stream did not contain valid UTF-8"

/-- 書類から文書を読み込む。 -/
def Loader.files (read? : ReadFile) : Loader := fun l =>
  match read? l with
  | none => .error (.notFound l)
  | some bytes =>
    match Format.ofPath l with
    | .error cause => .error (.invalid l cause)
    | .ok format =>
      match String.fromUTF8? bytes with
      | none => .error (.unreadable l notText)
      | some text =>
        match Document.parse format text with
        | .ok d => .ok d
        | .error cause => .error (.invalid l cause)

end SpecLineage
