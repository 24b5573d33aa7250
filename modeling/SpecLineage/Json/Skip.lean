import SpecLineage.Json.Token

/-!
# JSON の値の読み飛ばし

形に現れない項目の値は、JSON の書きかたに合うことだけを確かめて読み飛ばす。入れ子の深さに限りはなく、
開いた括弧を積んで数える。
-/

namespace SpecLineage.Json

/-- 開いた括弧。 -/
inductive Bracket where
  | list
  | record
  deriving DecidableEq

/-- 次に来てよいもの。 -/
inductive Expected where
  | value
  /-- 並びの最初の値か、並びの終わり。 -/
  | firstItem
  | key
  /-- 記録の最初の名札か、記録の終わり。 -/
  | firstKey
  | colon
  /-- 値の後の区切りか、括弧の終わり。 -/
  | separator
  deriving DecidableEq

/-- 値の最初の字句の後に来るもの。 -/
def afterValue (opened : List Bracket) : Token → Except Fault (Expected × List Bracket)
  | .openList => .ok (.firstItem, .list :: opened)
  | .openRecord => .ok (.firstKey, .record :: opened)
  | .null | .flag _ | .number _ | .text _ => .ok (.separator, opened)
  | .brokenText _ fault | .broken _ fault => .error fault
  | _ => .error .malformed

/-- 名札の字句の後に来るもの。 -/
def afterKey (opened : List Bracket) : Token → Except Fault (Expected × List Bracket)
  | .text _ => .ok (.colon, opened)
  | .brokenText _ fault => .error fault
  | _ => .error .malformed

/-- 字句を一つ読んだ後に来るものと、開いたままの括弧。 -/
def advance (expected : Expected) (opened : List Bracket) (t : Token) :
    Except Fault (Expected × List Bracket) :=
  match expected, opened, t with
  | .value, _, t => afterValue opened t
  | .firstItem, _ :: outer, .closeList => .ok (.separator, outer)
  | .firstItem, _, t => afterValue opened t
  | .key, _, t => afterKey opened t
  | .firstKey, _ :: outer, .closeRecord => .ok (.separator, outer)
  | .firstKey, _, t => afterKey opened t
  | .colon, _, .colon => .ok (.value, opened)
  | .separator, .list :: _, .comma => .ok (.value, opened)
  | .separator, .record :: _, .comma => .ok (.key, opened)
  | .separator, .list :: outer, .closeList => .ok (.separator, outer)
  | .separator, .record :: outer, .closeRecord => .ok (.separator, outer)
  | _, _, _ => .error .malformed

/-- 開いた括弧 `opened` の中で、全体の値が終わるまで読み飛ばす。 -/
def skip : Expected → (opened : List Bracket) → List Token → Except Fault (List Token)
  | .separator, [], ts => .ok ts
  | _, _, [] => .error .truncated
  | expected, opened, t :: ts =>
    match advance expected opened t with
    | .ok (expected, opened) => skip expected opened ts
    | .error fault => .error fault

end SpecLineage.Json
