import SpecLineage.Yaml.Token

/-!
# YAML の木

字句の列を、目印と名札のついた木にする。目印を引く所は、まだ引いた先に置き換えない。
-/

namespace SpecLineage.Yaml

/-- 木。`α` は目印の種類である。 -/
inductive Node (α : Type) where
  | scalar (anchor : Option α) (tag : Option String) (style : Style) (text : String)
  | list (anchor : Option α) (items : List (Node α))
  | record (anchor : Option α) (entries : List (Node α × Node α))
  | alias (anchor : α)

namespace Node

/-- 書かれていない値。 -/
def empty {α : Type} : Node α := .scalar none none .plain ""

/-! ## 目印と名札 -/

/-- 指示で定めた、名札の名の始まり。 -/
abbrev Handles := List (String × String)

/-- 指示がなくても定まっているもの。 -/
def standardHandles : Handles := [("!", "!"), ("!!", "tag:yaml.org,2002:")]

/-- 値の前に置いた目印と名札。 -/
structure Properties where
  anchor : Option String := none
  tag : Option String := none

/-- 名札の全体の名。 -/
def fullName (handles : Handles) (t : Tag) : Option String :=
  if t.handle.isEmpty then some t.suffix else (handles.lookup t.handle).map (· ++ t.suffix)

/-- 目印と名札を、どちらの順でも読む。 -/
def properties (handles : Handles) : List Token → Option (Properties × List Token)
  | .anchor a :: .tag t :: ts | .tag t :: .anchor a :: ts => do
    return (⟨some a, some (← fullName handles t)⟩, ts)
  | .anchor a :: ts => some (⟨some a, none⟩, ts)
  | .tag t :: ts => do return (⟨none, some (← fullName handles t)⟩, ts)
  | ts => some ({}, ts)

/-! ## 値 -/

/-- 値を置く所。 -/
inductive Place where
  /-- 括弧の中。 -/
  | flow
  /-- 字下げした並びの値と、文書の全体。 -/
  | block
  /-- 字下げした記録の鍵と値。同じ字下げの並びを置ける。 -/
  | member

/-- 字下げした並びの値が書かれていないか。 -/
def skipsItem : List Token → Bool
  | .entry :: _ | .blockEnd :: _ => true
  | _ => false

/-- 字下げした記録の鍵や値、または記録と同じ字下げの並びの値が書かれていないか。 -/
def skipsMember : List Token → Bool
  | .key :: _ | .value :: _ | .blockEnd :: _ => true
  | _ => false

/-- 括弧の中の値が書かれていないか。 -/
def skipsFlow : List Token → Bool
  | .comma :: _ | .closeList :: _ | .closeRecord :: _ => true
  | _ => false

/-- 並びや記録の二つ目からは、区切りを読む。 -/
def separator (first : Bool) : List Token → Option (List Token)
  | .comma :: ts => if first then none else some ts
  | ts => if first then some ts else none

/-- 字句の列の頭から読み、残りを返す。 -/
abbrev Reader (α : Type) := List Token → Option (α × List Token)

/-- 書かれていなければ空の値とし、書かれていれば `read` で読む。 -/
def orEmpty (skips : List Token → Bool) (read : Reader (Node String)) : Reader (Node String) :=
  fun ts => if skips ts then some (empty, ts) else read ts

/-- 区切りの点があれば、後の値を読む。 -/
def afterValue (skips : List Token → Bool) (read : Reader (Node String)) : Reader (Node String)
  | .value :: ts => orEmpty skips read ts
  | ts => some (empty, ts)

mutual
/-- 値を一つ読む。 -/
def value (handles : Handles) (fuel : Nat) (place : Place) (ts : List Token) :
    Option (Node String × List Token) :=
  match fuel with
  | 0 => none
  | fuel + 1 =>
    match ts with
    | .alias name :: ts => some (.alias name, ts)
    | ts => do
      let (p, ts) ← properties handles ts
      match place, ts with
      | .member, .entry :: _ =>
        let (items, ts) ← sameIndent handles fuel ts
        return (.list p.anchor items, ts)
      | _, .scalar style text :: ts =>
        return (.scalar p.anchor (if p.tag = some "!" then none else p.tag) style text, ts)
      | _, .openList :: ts =>
        let (items, ts) ← flowItems handles fuel true ts
        return (.list p.anchor items, ts)
      | _, .openRecord :: ts =>
        let (entries, ts) ← flowEntries handles fuel true ts
        return (.record p.anchor entries, ts)
      | .block, .listStart :: ts | .member, .listStart :: ts =>
        let (items, ts) ← blockItems handles fuel ts
        return (.list p.anchor items, ts)
      | .block, .recordStart :: ts | .member, .recordStart :: ts =>
        let (entries, ts) ← blockEntries handles fuel ts
        return (.record p.anchor entries, ts)
      | _, ts =>
        if p.anchor.isSome || p.tag.isSome then return (.scalar p.anchor p.tag .plain "", ts)
        else none

/-- 字下げした並びの値を、字下げの終わりまで読む。 -/
def blockItems (handles : Handles) (fuel : Nat) (ts : List Token) :
    Option (List (Node String) × List Token) :=
  match fuel, ts with
  | _, .blockEnd :: ts => some ([], ts)
  | fuel + 1, .entry :: ts => do
    let (node, ts) ← orEmpty skipsItem (value handles fuel .block) ts
    let (nodes, ts) ← blockItems handles fuel ts
    return (node :: nodes, ts)
  | _, _ => none

/-- 記録と同じ字下げの並びの値を読む。 -/
def sameIndent (handles : Handles) (fuel : Nat) (ts : List Token) :
    Option (List (Node String) × List Token) :=
  match fuel, ts with
  | 0, .entry :: _ => none
  | fuel + 1, .entry :: ts => do
    let (node, ts) ← orEmpty (fun ts => skipsItem ts || skipsMember ts) (value handles fuel .block) ts
    let (nodes, ts) ← sameIndent handles fuel ts
    return (node :: nodes, ts)
  | _, ts => some ([], ts)

/-- 字下げした記録の項目を、字下げの終わりまで読む。 -/
def blockEntries (handles : Handles) (fuel : Nat) (ts : List Token) :
    Option (List (Node String × Node String) × List Token) :=
  match fuel, ts with
  | _, .blockEnd :: ts => some ([], ts)
  | fuel + 1, .key :: ts => do
    let (key, ts) ← orEmpty skipsMember (value handles fuel .member) ts
    let (node, ts) ← afterValue skipsMember (value handles fuel .member) ts
    let (entries, ts) ← blockEntries handles fuel ts
    return ((key, node) :: entries, ts)
  | _, _ => none

/-- 括弧の中の並びの値を、閉じる括弧まで読む。鍵を示した値は、一つの項目の記録になる。示した鍵が書かれて
いなければ、次の字句が何であれ一つ飛ばす。 -/
def flowItems (handles : Handles) (fuel : Nat) (first : Bool) (ts : List Token) :
    Option (List (Node String) × List Token) :=
  match fuel, ts with
  | _, .closeList :: ts => some ([], ts)
  | 0, _ => none
  | fuel + 1, ts => do
    match ← separator first ts with
    | .closeList :: ts => return ([], ts)
    | .key :: ts =>
      let (key, ts) ←
        match ts with
        | .value :: ts | .comma :: ts | .closeList :: ts => some (empty, ts)
        | ts => value handles fuel .flow ts
      let (node, ts) ← afterValue skipsFlow (value handles fuel .flow) ts
      let (nodes, ts) ← flowItems handles fuel false ts
      return (.record none [(key, node)] :: nodes, ts)
    | ts =>
      let (node, ts) ← value handles fuel .flow ts
      let (nodes, ts) ← flowItems handles fuel false ts
      return (node :: nodes, ts)

/-- 括弧の中の記録の項目を、閉じる括弧まで読む。鍵を示していない値は、空の値を持つ鍵になる。 -/
def flowEntries (handles : Handles) (fuel : Nat) (first : Bool) (ts : List Token) :
    Option (List (Node String × Node String) × List Token) :=
  match fuel, ts with
  | _, .closeRecord :: ts => some ([], ts)
  | 0, _ => none
  | fuel + 1, ts => do
    match ← separator first ts with
    | .closeRecord :: ts => return ([], ts)
    | .key :: ts =>
      let (key, ts) ←
        match ts with
        | .value :: _ => some (empty, ts)
        | ts => orEmpty skipsFlow (value handles fuel .flow) ts
      let (node, ts) ← afterValue skipsFlow (value handles fuel .flow) ts
      let (entries, ts) ← flowEntries handles fuel false ts
      return ((key, node) :: entries, ts)
    | ts =>
      let (key, ts) ← value handles fuel .flow ts
      let (entries, ts) ← flowEntries handles fuel false ts
      return ((key, empty) :: entries, ts)
end

/-! ## 文書 -/

/-- 文書の前の指示を読む。版は一度だけ、名札の名は名ごとに一度だけ定められる。 -/
def directives (versioned : Bool) (handles : Handles) : List Token → Option (Handles × List Token)
  | .directive (.version major minor) :: ts =>
    if versioned || major != 1 || (minor != 1 && minor != 2) then none
    else directives true handles ts
  | .directive (.handle name text) :: ts =>
    if (handles.lookup name).isSome then none
    else directives versioned (handles ++ [(name, text)]) ts
  | ts => some (handles, ts)

/-- 文書の値が書かれていないか。 -/
def skipsDocument : List Token → Bool
  | [] | .directive _ :: _ | .documentStart :: _ | .documentEnd :: _ => true
  | _ => false

/-- 文書の終わりの印を飛ばす。 -/
def skipEnds : List Token → List Token
  | .documentEnd :: ts => skipEnds ts
  | ts => ts

/-- 指示と始まりの印を読む。どちらも省ける。 -/
def prologue : List Token → Option (Handles × Bool × List Token)
  | .directive d :: ts => do
    match ← directives false [] (.directive d :: ts) with
    | (handles, .documentStart :: ts) => return (handles, true, ts)
    | _ => none
  | .documentStart :: ts => some ([], true, ts)
  | ts => some ([], false, ts)

/-- 字句の列の表す、ただ一つの文書の木。文書がなければ `none` を持つ。 -/
def ofTokens? (ts : List Token) : Option (Option (Node String)) :=
  match ts with
  | [] => some none
  | ts => do
    let (handles, marked, ts) ← prologue ts
    let handles := handles ++ standardHandles
    let read := value handles (3 * ts.length + 3) .block
    let (node, ts) ← if marked then orEmpty skipsDocument read ts else read ts
    if (skipEnds ts).isEmpty then return some node else none

end Node

end SpecLineage.Yaml
