import SpecLineage.Data.Layout

/-!
# 文書の見出し

見出しの文字列は、書かれていないことと空文字列とを区別する。空文字列は書かれた値であり、
祖先の値に優先する。
-/

namespace SpecLineage

/-- 文書を識別し説明する見出し。 -/
structure Metadata where
  id : Option String := none
  version : Option String := none
  title : Option String := none
  description : Option String := none
  author : Option String := none
  /-- 順と重複を保つ。 -/
  tags : List String := []
  deriving DecidableEq

instance : Layout Metadata where
  shape := .record <|
    .maybe "id" String <| .maybe "version" String <| .maybe "title" String <|
    .maybe "description" String <| .maybe "author" String <| .default "tags" (List String) .nil
  toData m := .record
    [Slot.maybe m.id, Slot.maybe m.version, Slot.maybe m.title, Slot.maybe m.description,
      Slot.maybe m.author, Slot.many m.tags]
  ofData?
    | .record [id, version, title, description, author, tags] => do
      return {
        id := ← Slot.maybe? id
        version := ← Slot.maybe? version
        title := ← Slot.maybe? title
        description := ← Slot.maybe? description
        author := ← Slot.maybe? author
        tags := ← Slot.many? tags }
    | _ => none
  ofData?_toData _ := by simp

end SpecLineage
