import SpecLineage.Json.Skip
import SpecLineage.Data.Shape

/-!
# JSON から値を読む

形に沿って字句の列から値を読む。誤りは、左から読んで最初に出会ったものを答える。

記録は項目の名札を持つ書きかたのほか、項目の値だけを形の順に並べた書きかたでも読む。形に現れない名札の
項目は読み飛ばし、形に現れる名札が二度現れるのは誤りとする。
-/

namespace SpecLineage.Json

/-- 字句の列の頭から読み、残りを返す。 -/
abbrev Reader (α : Type) := List Token → Except Fault (α × List Token)

/-- 値を読むべき所に、求める形に合わない字句が来たときの誤り。 -/
def unexpected : List Token → Fault
  | [] => .truncated
  | .text none :: _ => .malformed
  | .number .tooLarge :: _ => .malformed
  | .brokenText fault _ :: _ => fault
  | .broken fault _ :: _ => fault
  | .openList :: _ | .openRecord :: _ | .null :: _ | .flag _ :: _ | .number _ :: _ | .text _ :: _ =>
    .mismatched
  | _ :: _ => .malformed

def text : Reader Data
  | .text (some s) :: ts => .ok (.text s, ts)
  | ts => .error (unexpected ts)

def flag : Reader Data
  | .flag b :: ts => .ok (.flag b, ts)
  | ts => .error (unexpected ts)

def natural (bound : Nat) : Reader Data
  | .number (.natural n) :: ts => if n < bound then .ok (.natural n, ts) else .error .mismatched
  | ts => .error (unexpected ts)

/-- 決まった字句を一つ読む。 -/
def expect (t : Token) : List Token → Except Fault (List Token)
  | [] => .error .truncated
  | t' :: ts => if t' = t then .ok ts else .error .malformed

/-- 名の一つを読む。名を名札とし `null` を値とする記録も、その名を表す。 -/
def choice (names : List String) : Reader Data
  | [] => .error .truncated
  | .text none :: _ => .error .malformed
  | .text (some s) :: ts => if s ∈ names then .ok (.text s, ts) else .error .mismatched
  | .brokenText fault _ :: _ => .error fault
  | .openRecord :: .text (some s) :: ts => do
    if s ∉ names then throw .mismatched
    let ts ← expect .colon ts
    match ts with
    | .null :: ts => return (.text s, ← expect .closeRecord ts)
    | ts => throw (unexpected ts)
  | .openRecord :: .brokenText fault _ :: _ => .error fault
  | .openRecord :: [] => .error .truncated
  | _ :: _ => .error .malformed

/-! ## 並び -/

/-- 並びの残りの値を、閉じる括弧まで読む。 -/
def items (item : Reader Data) (ts : List Token) : Except Fault (List Data × List Token) :=
  match item ts with
  | .error fault => .error fault
  | .ok (d, .closeList :: rest) => .ok ([d], rest)
  | .ok (_, []) => .error .truncated
  | .ok (_, .comma :: []) => .error .truncated
  | .ok (_, .comma :: .closeList :: _) => .error .malformed
  | .ok (d, .comma :: rest) =>
    if rest.length < ts.length then
      match items item rest with
      | .error fault => .error fault
      | .ok (ds, rest) => .ok (d :: ds, rest)
    else .error .malformed
  | .ok _ => .error .malformed
termination_by ts.length

def list (item : Reader Data) : Reader Data
  | .openList :: .closeList :: ts => .ok (.list [], ts)
  | .openList :: [] => .error .truncated
  | .openList :: ts => (items item ts).map fun (ds, rest) => (.list ds, rest)
  | ts => .error (unexpected ts)

/-! ## 記録 -/

/-- 記録の項目の読みかた。 -/
structure Member where
  key : String
  presence : Presence
  read : Reader Data

namespace Member

/-- 項目の値を読む。欠けても空でもよい項目は `null` を欠けたものとして読む。 -/
def slot (m : Member) : Reader (Option Data)
  | .null :: ts =>
    if m.presence = .optional then .ok (none, ts)
    else (m.read (.null :: ts)).map fun (d, rest) => (some d, rest)
  | ts => (m.read ts).map fun (d, rest) => (some d, rest)

/-- 現れなかった項目の値。 -/
def absent (m : Member) : Except Fault (Option Data) :=
  if m.presence = .required then .error .mismatched else .ok none

end Member

/-- 項目の値だけを並べた記録を読む。途中で終われば残りの項目は欠けたものとする。 -/
def row (first : Bool) : List Member → Reader (List (Option Data))
  | [], [] => .error .truncated
  | [], .closeList :: ts => .ok ([], ts)
  | [], _ :: _ => .error .malformed
  | _ :: _, [] => .error .truncated
  | m :: ms, .closeList :: ts => do
    return (← (m :: ms).mapM Member.absent, ts)
  | m :: ms, ts => do
    let ts ← if first then pure ts else separated ts
    let (d, ts) ← m.slot ts
    let (ds, ts) ← row false ms ts
    return (d :: ds, ts)
where
  /-- 区切りを読む。区切りの後には値がなければならない。 -/
  separated : List Token → Except Fault (List Token)
    | .comma :: [] => .error .truncated
    | .comma :: .closeList :: _ => .error .malformed
    | .comma :: ts => .ok ts
    | _ => .error .malformed

/-- 読みかけの項目。まだ現れていなければ値を持たない。 -/
structure Draft where
  member : Member
  seen : Option (Option Data) := none

/-- 名札 `key` の項目。 -/
def draft? (key : String) (drafts : List Draft) : Option Draft :=
  drafts.find? fun d => d.member.key == key

/-- 名札 `key` の項目に値を入れる。 -/
def fill (key : String) (value : Option Data) (drafts : List Draft) : List Draft :=
  drafts.map fun d => if d.member.key == key then { d with seen := some value } else d

/-- 読み終えた項目の値。 -/
def close (drafts : List Draft) : Except Fault (List (Option Data)) :=
  drafts.mapM fun d =>
    match d.seen with
    | some value => .ok value
    | none => d.member.absent

/-- 名札 `key` の項目の値を読む。 -/
def entry (key : String) (drafts : List Draft) (ts : List Token) :
    Except Fault (List Draft × List Token) :=
  match draft? key drafts with
  | some { member, seen := none } => do
    let (value, ts) ← member.slot (← expect .colon ts)
    return (fill key value drafts, ts)
  | some _ => .error .mismatched
  | none => do
    let ts ← skip .value [] (← expect .colon ts)
    return (drafts, ts)

/-- 名札から始めて、閉じる括弧まで項目を読む。 -/
def entries (drafts : List Draft) (ts : List Token) : Except Fault (List Draft × List Token) :=
  match ts with
  | [] => .error .truncated
  | .text (some key) :: tail =>
    match entry key drafts tail with
    | .error fault => .error fault
    | .ok (_, []) => .error .truncated
    | .ok (drafts, .closeRecord :: rest) => .ok (drafts, rest)
    | .ok (drafts, .comma :: rest) =>
      if rest.length ≤ tail.length then entries drafts rest else .error .malformed
    | .ok _ => .error .malformed
  | .brokenText fault _ :: _ => .error fault
  | _ :: _ => .error .malformed
termination_by ts.length

def record (members : List Member) : Reader Data
  | .openList :: ts => do
    let (slots, ts) ← row true members ts
    return (.record slots, ts)
  | .openRecord :: ts => do
    let drafts := members.map fun m => { member := m }
    let (drafts, ts) ←
      match ts with
      | .closeRecord :: ts => pure (drafts, ts)
      | ts => entries drafts ts
    return (.record (← close drafts), ts)
  | ts => .error (unexpected ts)

/-! ## 形に沿った読み -/

mutual
/-- 形に沿った値を一つ読む。 -/
def value : Shape → Reader Data
  | .text => text
  | .flag => flag
  | .natural bound => natural bound
  | .choice names => choice names
  | .list item => list (value item)
  | .record ms => record (members ms)

/-- 項目の読みかたを並べる。 -/
def members : Members → List Member
  | .nil => []
  | .cons key presence shape rest => ⟨key, presence, value shape⟩ :: members rest
end

/-- 文字列全体を、形に沿った一つの値として読む。 -/
def read (shape : Shape) (s : String) : Except Fault Data := do
  let (d, rest) ← value shape (tokens s.toList)
  if rest.isEmpty then return d else throw .malformed

end SpecLineage.Json
